import MediaGraph.Proofs.Consumers
import MediaGraph.Proofs.Exports
import MediaGraph.Proofs.Linking

/-! What completing a graph adds to it.
The operations that were there stay as they are and where they are; splits of the graph's own
get more outputs. What is added is an identity for each export that has to change a fixed
name, and splits behind pipes that get a second consumer. -/
namespace MediaGraph
open Session

namespace Session

/-- The operation is that of a split which the graph put behind a pipe. -/
def divides (s : Session) (o : Nat) : Bool :=
  s.pipes.any fun p => p.splitter.any fun i => (s.stage i).operation == some o

def ownOperations (s : Session) : List Operation :=
  ((List.range s.operations.size).filter fun o => !s.divides o).map s.operation

/-- What is put in the way of a pipe that has a fixed name and leaves under another one. -/
def identity (name : String) (p : Pipe) : List Operation :=
  if p.fixed ∧ p.name ≠ name then [.named (if p.media = .audio then "anull" else "null")] else []

/-- The identities that exports come to, each by its pipe when its turn comes. -/
def identities : List (String × PipeId) → Session → List Operation
  | [], _ => []
  | (name,id) :: rest, s =>
    match exportPipe name id s with
    | .ok _ t => identity name (s.pipe id.index) ++ identities rest t
    | .error _ _ => identity name (s.pipe id.index)

/-- What was there keeps its place and gets outputs or other arguments at most, and each
stage that was added is a chain of its own. -/
structure Widens (s t : Session) : Prop where
  stage : ∀ i, i < s.stages.size →
    ∃ more, t.stage i = { s.stage i with outputs := (s.stage i).outputs ++ more }
  alone : ∀ i, s.stages.size ≤ i → (t.stage i).prev = none ∧ (t.stage i).next = none
  roots : ∃ count, t.stages.size = s.stages.size + count ∧
    t.roots.toList = s.roots.toList ++ List.range' s.stages.size count
  operation : ∀ o, o < s.operations.size → ∃ args, t.operation o = { s.operation o with args := args }
  operations : s.operations.size ≤ t.operations.size
  splitter : ∀ p i, (s.pipe p).splitter = some i → (t.pipe p).splitter = some i

section Steps
variable {s t u : Session}

theorem Widens.of_same (stages : t.stages = s.stages) (roots : t.roots = s.roots)
    (operations : t.operations = s.operations)
    (splitter : ∀ p, (t.pipe p).splitter = (s.pipe p).splitter) : Widens s t := by
  have stage (i : Nat) : t.stage i = s.stage i := by rw [Session.stage,stages]; rfl
  constructor
  case stage => exact fun i _ => ⟨#[],by simp [stage]⟩
  case alone =>
    intro i outside
    have empty : s.stage i = .empty := by simp [Session.stage,outside]
    rw [stage,empty]
    exact ⟨rfl,rfl⟩
  case roots => exact ⟨0,by rw [stages]; rfl,by simp [roots]⟩
  case operation => exact fun o _ => ⟨_,by rw [Session.operation,operations]; rfl⟩
  case operations => exact Nat.le_of_eq (by rw [operations])
  case splitter => exact fun p i behind => (splitter p).trans behind

theorem Widens.refl (s : Session) : Widens s s := .of_same rfl rfl rfl fun _ => rfl

theorem Widens.stages (widens : Widens s t) : s.stages.size ≤ t.stages.size := by
  obtain ⟨count,size,_⟩ := widens.roots
  omega

theorem Widens.trans (first : Widens s t) (second : Widens t u) : Widens s u := by
  constructor
  case stage =>
    intro i old
    obtain ⟨more,before⟩ := first.stage i old
    obtain ⟨extra,after⟩ := second.stage i (Nat.lt_of_lt_of_le old first.stages)
    exact ⟨more ++ extra,by rw [after,before,Array.append_assoc]⟩
  case alone =>
    intro i outside
    rcases Nat.lt_or_ge i t.stages.size with inside | beyond
    · obtain ⟨more,after⟩ := second.stage i inside
      rw [after]
      exact first.alone i outside
    · exact second.alone i beyond
  case roots =>
    obtain ⟨count,size,roots⟩ := first.roots
    obtain ⟨extra,size',roots'⟩ := second.roots
    refine ⟨count + extra,by omega,?_⟩
    rw [roots',roots,size,List.append_assoc,List.range'_append_1]
  case operation =>
    intro o old
    obtain ⟨args,before⟩ := first.operation o old
    obtain ⟨args',after⟩ := second.operation o (Nat.lt_of_lt_of_le old first.operations)
    exact ⟨args',by rw [after,before]⟩
  case operations => exact Nat.le_trans first.operations second.operations
  case splitter => exact fun p i behind => second.splitter p i (first.splitter p i behind)

theorem Widens.of_push {stage : Stage} {op : Operation}
    (stages : ∀ i, t.stage i = if i = s.stages.size then stage else s.stage i)
    (bare : stage.prev = none ∧ stage.next = none) (size : t.stages.size = s.stages.size + 1)
    (roots : t.roots = s.roots.push s.stages.size)
    (operations : t.operations = s.operations.push op)
    (splitter : ∀ p i, (s.pipe p).splitter = some i → (t.pipe p).splitter = some i) :
    Widens s t := by
  constructor
  case stage => exact fun i old => ⟨#[],by rw [stages,if_neg (Nat.ne_of_lt old)]; simp⟩
  case alone =>
    intro i outside
    rw [stages]
    split
    · exact bare
    · have empty : s.stage i = .empty := by simp [Session.stage,outside]
      rw [empty]
      exact ⟨rfl,rfl⟩
  case roots => exact ⟨1,size,by simp [roots]⟩
  case operation =>
    intro o old
    rw [Session.operation,operations,getD_push,if_neg (Nat.ne_of_lt old)]
    exact ⟨_,rfl⟩
  case operations => simp [operations]
  case splitter => exact splitter

theorem Widens.of_output {i p : Nat}
    (stages : ∀ j, t.stage j =
      if j = i then { s.stage j with outputs := (s.stage j).outputs.push p } else s.stage j)
    (size : t.stages.size = s.stages.size) (roots : t.roots = s.roots)
    (operation : ∀ o, ∃ args, t.operation o = { s.operation o with args := args })
    (operations : t.operations.size = s.operations.size)
    (splitter : ∀ p i, (s.pipe p).splitter = some i → (t.pipe p).splitter = some i) :
    Widens s t := by
  constructor
  case stage =>
    intro j _
    rw [stages]
    split
    · exact ⟨#[p],by rw [Array.push_eq_append]⟩
    · exact ⟨#[],by simp⟩
  case alone =>
    intro j outside
    have empty : s.stage j = .empty := by simp [Session.stage,outside]
    rw [stages]
    split <;> (rw [empty]; exact ⟨rfl,rfl⟩)
  case roots => exact ⟨0,size,by simp [roots]⟩
  case operation => exact fun o _ => operation o
  case operations => exact Nat.le_of_eq operations.symm
  case splitter => exact splitter

theorem Turn.widens {l m : Ledger} (turn : Turn l m) (sound : Sound l.session l.pending) :
    Widens l.session m.session := by
  have splitter (p i : Nat) := turn.splitter sound (p := p) (i := i)
  cases turn with
  | take s _ _ r =>
    have inside := sound.reading.inside r (sound.reading.waiting r (by simp))
    exact .of_same rfl rfl rfl (Untouched.of_takeDirect inside).splitters
  | attach s _ _ r _ _ name =>
    exact .of_push (stage_attach s _ name) ⟨rfl,rfl⟩ (by simp [Session.attach]) rfl rfl splitter
  | move s _ _ r _ i o behind holds =>
    refine .of_output (stage_moveTo s i o r · (inside_of_holds (by simp [holds])))
      (by simp [Session.moveTo]) rfl (fun k => ?_) (by simp [Session.moveTo]) splitter
    rw [operation_moveTo s i o r k (sound.holding.inside i o holds)]
    split
    · exact ⟨_,rfl⟩
    · exact ⟨_,rfl⟩

end Steps

section Lists
variable {s t : Session} {o : Nat}

theorem divides_iff : s.divides o = true ↔ ∃ i, s.Made i ∧ (s.stage i).operation = some o := by
  simp only [divides,Array.any_eq_true,Option.any_eq_true,beq_iff_eq]
  constructor
  · rintro ⟨p,bound,i,behind,holds⟩
    exact ⟨i,⟨p,by simpa [Session.pipe,bound] using behind⟩,holds⟩
  · rintro ⟨i,⟨p,behind⟩,holds⟩
    have bound : p < s.pipes.size := getD_bound s.pipes (.anonymous "") p fun same => by
      rw [Session.pipe,same] at behind
      cases behind
    exact ⟨p,bound,i,by simpa [Session.pipe,bound] using behind,holds⟩

theorem outerOperation_iff : s.OuterOperation o ↔ o < s.operations.size ∧ s.divides o = false := by
  rw [OuterOperation,← Bool.not_eq_true,divides_iff]
  simp

theorem Widens.own (widens : Widens s t) (later : Later s t)
    (same : ∀ o, s.OuterOperation o → t.operation o = s.operation o) :
    t.ownOperations = s.ownOperations ++ ((List.range' s.operations.size
      (t.operations.size - s.operations.size)).filter fun o => !t.divides o).map t.operation := by
  have status (o : Nat) (old : o < s.operations.size) : t.divides o = s.divides o := by
    cases before : s.divides o with
    | false => exact (outerOperation_iff.mp (later.operation o (outerOperation_iff.mpr ⟨old,before⟩))).2
    | true =>
      obtain ⟨i,⟨p,behind⟩,holds⟩ := divides_iff.mp before
      obtain ⟨more,stage⟩ := widens.stage i (inside_of_holds (by simp [holds]))
      exact divides_iff.mpr ⟨i,⟨p,widens.splitter p i behind⟩,by rw [stage]; exact holds⟩
  have split : List.range t.operations.size = List.range s.operations.size ++
      List.range' s.operations.size (t.operations.size - s.operations.size) := by
    have whole := @List.range'_append_1 0 s.operations.size
      (t.operations.size - s.operations.size)
    rw [Nat.zero_add,Nat.add_sub_cancel' widens.operations] at whole
    rw [List.range_eq_range',List.range_eq_range',whole]
  rw [ownOperations,split,List.filter_append,List.map_append,ownOperations]
  congr 1
  have kept : (List.range s.operations.size).filter (fun o => !t.divides o) =
      (List.range s.operations.size).filter fun o => !s.divides o :=
    List.filter_congr fun o member => by rw [status o (List.mem_range.mp member)]
  rw [kept]
  refine List.map_congr_left fun o member => ?_
  obtain ⟨inside,own⟩ := List.mem_filter.mp member
  exact same o (outerOperation_iff.mpr ⟨List.mem_range.mp inside,by simpa using own⟩)

theorem ownOperations_congr (stages : ∀ i, (t.stage i).operation = (s.stage i).operation)
    (operations : t.operations = s.operations)
    (splitters : ∀ p, (t.pipe p).splitter = (s.pipe p).splitter) :
    t.ownOperations = s.ownOperations := by
  have status : t.divides = s.divides := by
    funext o
    rw [Bool.eq_iff_iff,divides_iff,divides_iff]
    simp only [made_congr splitters,stages]
  have operation : t.operation = s.operation := by
    funext o
    rw [Session.operation,operations]
    rfl
  rw [ownOperations,ownOperations,status,operations,operation]

theorem Widens.own_same (widens : Widens s t) (later : Later s t)
    (same : ∀ o, s.OuterOperation o → t.operation o = s.operation o)
    (size : t.operations.size = s.operations.size) : t.ownOperations = s.ownOperations := by
  rw [widens.own later same,size,Nat.sub_self]
  simp

theorem Turn.own {l m : Ledger} (turn : Turn l m) (sound : Sound l.session l.pending) :
    m.session.ownOperations = l.session.ownOperations := by
  have widens := turn.widens sound
  have later := turn.later sound
  have steady := turn.steady sound
  cases turn with
  | take => exact widens.own_same later steady.operation rfl
  | move => exact widens.own_same later steady.operation (by simp [Session.moveTo])
  | attach s _ _ r _ _ name _ _ _ takes =>
    have split : (s.attach (s.reader r).pipe name).divides s.operations.size = true := by
      refine divides_iff.mpr ⟨s.stages.size,⟨(s.reader r).pipe,?_⟩,?_⟩
      · rw [splitter_attach s _ name _ (sound.reading.pipe_inside takes),if_pos rfl]
      · rw [stage_attach,if_pos rfl]
    have size : (s.attach (s.reader r).pipe name).operations.size = s.operations.size + 1 :=
      Array.size_push ..
    rw [widens.own later steady.operation,size,Nat.add_sub_cancel_left]
    simp [split]

theorem Turns.widens {l m : Ledger} (turns : Turns l m) (kept : l.Kept) :
    Widens l.session m.session ∧ m.session.ownOperations = l.session.ownOperations := by
  induction turns with
  | refl => exact ⟨.refl _,rfl⟩
  | tail turns turn ih =>
    have sound := (Moves.kept (Turns.moves turns) kept).1
    exact ⟨ih.1.trans (turn.widens sound),(turn.own sound).trans ih.2⟩

end Lists

section Exports
variable {s t : Session} {put : List (Nat × Nat)} {took : List Nat} {u : Unit} {p : Nat}

theorem begin_widens (kept : Ledger.Kept ⟨s,put,took,[]⟩) (outer : s.OuterPipe p) (name : String) :
    let v := (s.addChain [p]).hold s.stages.size (.named name)
    Widens s v ∧ v.ownOperations = s.ownOperations ++ [.named name] := by
  intro v
  obtain ⟨begun,steady,through,_⟩ := begin_plains kept outer name
  have operations : v.operations = s.operations.push (.named name) := by
    simp [v,Session.hold,addChain_eq]
  have size : (s.addChain [p]).stages.size = s.stages.size + 1 := by simp [addChain_eq]
  have stages (i : Nat) : v.stage i =
      if i = s.stages.size then ⟨some s.operations.size,[s.readers.size],#[],none,none⟩
        else s.stage i := by
    split
    next last => rw [last,through.pads]
    next other => rw [stage_hold,if_neg fun both => other both.1,stage_addChain,if_neg other]
  have inside : ∀ q ∈ [p], q < s.pipes.size := by simpa using outer.1
  have widens : Widens s v := by
    refine .of_push stages ⟨rfl,rfl⟩ (by simp [v,Session.hold,size])
      (by simp [v,Session.hold,addChain_eq]) operations fun q i behind => ?_
    have noted := pipe_addChain s inside q
    change ((s.addChain [p]).pipe q).splitter = some i
    rw [noted,note_splitter,behind]
  refine ⟨widens,?_⟩
  have mine := (outerOperation_iff.mp through.operation).2
  rw [widens.own (Plains.later begun kept) steady.operation,operations,Array.size_push,
    Nat.add_sub_cancel_left]
  simp [v,mine,through.held]

theorem passThrough_widens {out : Nat} (kept : Ledger.Kept ⟨s,put,took,[]⟩)
    (outer : s.OuterPipe p) (called : passThrough p s = .ok out t) :
    Widens s t ∧ t.ownOperations =
      s.ownOperations ++ [.named (if (s.pipe p).media = .audio then "anull" else "null")] := by
  obtain ⟨name,w,x,media,kind,turns,_,rfl,_,rfl⟩ := passThrough_opened kept outer called
  obtain ⟨begun,_,through,_⟩ := begin_plains kept outer name
  obtain ⟨widensV,ownV⟩ := begin_widens kept outer name
  have keptV := Plains.kept begun kept
  obtain ⟨widensW,ownW⟩ := Turns.widens turns keptV
  have inside : s.stages.size < w.stages.size :=
    ((Moves.later (Turns.moves turns) keptV).stage _ through.stage).1
  let x := w.addOutput s.stages.size (.named name)
  have splitters (q : Nat) : (x.pipe q).splitter = (w.pipe q).splitter := by
    rw [pipe_addOutput]
    split
    next last => simp [last,Session.pipe,Pipe.anonymous]
    next => rfl
  have stages (i : Nat) := stage_addOutput w s.stages.size (.named name) i inside
  have widensX : Widens w x := .of_output stages Array.size_modify rfl (fun o => ⟨_,rfl⟩) rfl
    fun q i behind => (splitters q).trans behind
  have ownX : x.ownOperations = w.ownOperations := by
    refine ownOperations_congr (fun i => ?_) rfl splitters
    rw [stages]
    split <;> rfl
  have painted (q : Nat) :
      ((x.paint out media (x.pipe out).hint).pipe q).splitter = (x.pipe q).splitter := by
    rw [Session.paint,pipe_modifyPipe]
    split <;> rfl
  have ownT : (x.paint out media (x.pipe out).hint).ownOperations = x.ownOperations :=
    ownOperations_congr (fun _ => rfl) rfl painted
  refine ⟨widensV.trans (widensW.trans (widensX.trans (.of_same rfl rfl rfl painted))),?_⟩
  have named : name = if (s.pipe p).media = .audio then "anull" else "null" := by
    revert kind
    cases (s.pipe p).media <;> simp [Helper.filter,eq_comm]
  rw [ownT,ownX,ownW,ownV,← named]

theorem retitle_widens (q : Nat) (name : String) :
    Widens s (s.retitle q name) ∧ (s.retitle q name).ownOperations = s.ownOperations := by
  have splitters (r : Nat) : ((s.retitle q name).pipe r).splitter = (s.pipe r).splitter := by
    rw [Session.retitle,pipe_modifyPipe]
    split <;> rfl
  exact ⟨.of_same rfl rfl rfl splitters,ownOperations_congr (fun _ => rfl) rfl splitters⟩

theorem exportTarget_widens {name : String} {target : Nat} (kept : Ledger.Kept ⟨s,put,took,[]⟩)
    (outer : s.OuterPipe p) (called : exportTarget name p s = .ok target t) :
    Widens s t ∧ t.ownOperations = s.ownOperations ++ identity name (s.pipe p) := by
  simp only [exportTarget,bind_ok,get_ok,choice_ok,pure_ok,and_assoc,exists_and_left,
    exists_eq_left] at called
  rcases called with
    ⟨same,rfl,rfl⟩ | ⟨other,⟨fixed,out,v,passed,_,w,renamed,rfl,rfl⟩ | ⟨free,_,v,renamed,rfl,rfl⟩⟩
  · exact ⟨.refl _,by simp [identity,same]⟩
  · obtain ⟨widens,own⟩ := passThrough_widens kept outer passed
    obtain ⟨_,rfl⟩ := renamePipe_ok renamed
    obtain ⟨retitled,same⟩ := retitle_widens (s := v) target name
    have added : identity name (s.pipe p) = _ := if_pos ⟨fixed,other⟩
    exact ⟨widens.trans retitled,by rw [same,own,added]⟩
  · obtain ⟨_,rfl⟩ := renamePipe_ok renamed
    obtain ⟨retitled,same⟩ := retitle_widens (s := s) target name
    have none : identity name (s.pipe target) = [] := if_neg fun both => free both.1
    exact ⟨retitled,by rw [same,none,List.append_nil]⟩

theorem exportPipe_widens {name : String} {id : PipeId} (kept : Ledger.Kept ⟨s,put,took,[]⟩)
    (outer : s.OuterPipe id.index) (called : exportPipe name id s = .ok u t) :
    Widens s t ∧ t.ownOperations = s.ownOperations ++ identity name (s.pipe id.index) := by
  obtain ⟨target,v,more,aimed,_,_,moves,_,known,_,_,_,resolved⟩ :=
    exportPipe_opened kept outer called
  obtain ⟨widensV,ownV⟩ := exportTarget_widens kept outer aimed
  have keptV := Moves.kept moves kept
  let w := v.addReader target .exported
  have record : w = _ := addReader_eq target .exported v
  have left := Closing.leave v (put ++ more) (took ++ more.map (·.1)) target known.1 known.2
  have keptW := left.kept keptV
  have splitters := (Untouched.of_addReader (s := v) target .exported).splitters
  have widensW : Widens v w :=
    .of_same (by rw [record]) (by rw [record]) (by rw [record]) splitters
  have ownW : w.ownOperations = v.ownOperations :=
    ownOperations_congr (fun i => by rw [record]; rfl) (by rw [record]) splitters
  have idle (x : Nat) (member : x ∈ [v.readers.size]) : (w.reader x).resolved = false := by
    rw [List.mem_singleton.mp member,reader_addReader,if_pos rfl]
  obtain ⟨widensT,ownT⟩ := Turns.widens (resolve_ok keptW idle resolved).1 keptW
  exact ⟨widensV.trans (widensW.trans widensT),by rw [ownT,ownW,ownV]⟩

theorem exportAll_widens {exports : List (String × PipeId)} (kept : Ledger.Kept ⟨s,put,took,[]⟩)
    (outer : ∀ entry ∈ exports, s.OuterPipe entry.2.index) (called : exportAll exports s = .ok u t) :
    Widens s t ∧ Steady s t ∧ t.ownOperations = s.ownOperations ++ identities exports s := by
  induction exports generalizing s put took with
  | nil =>
    obtain ⟨_,rfl⟩ := pure_ok.mp called
    exact ⟨.refl _,.refl _,(List.append_nil _).symm⟩
  | cons entry rest ih =>
    obtain ⟨name,id⟩ := entry
    obtain ⟨_,v,exported,called⟩ := bind_ok.mp called
    have known := outer (name,id) (by simp)
    obtain ⟨widens,own⟩ := exportPipe_widens kept known exported
    obtain ⟨closings,steady,_⟩ := exportPipe_ok kept known exported
    have later := Closings.later closings kept
    obtain ⟨more,stays,others⟩ := ih (Closings.kept closings kept)
      (fun other member => later.pipe _ (outer other (by simp [member]))) called
    refine ⟨widens.trans more,steady.trans later stays,?_⟩
    rw [others,own,identities,exported,List.append_assoc]

theorem Layout.widened {chains : List (List Nat)} (layout : Layout s chains) (widens : Widens s t) :
    ∃ more : List Nat, Layout t (chains ++ more.map fun i => [i]) := by
  obtain ⟨count,size,roots⟩ := widens.roots
  refine ⟨List.range' s.stages.size count,?_,?_,?_⟩
  · intro chain member
    rcases List.mem_append.mp member with old | new
    · refine (layout.linked chain old).congr fun i present => ?_
      have inside := layout.mem_flatten.mp (List.mem_flatten.mpr ⟨chain,old,present⟩)
      obtain ⟨more,stage⟩ := widens.stage i inside
      rw [stage]
      exact ⟨rfl,rfl⟩
    · obtain ⟨i,listed,rfl⟩ := List.mem_map.mp new
      obtain ⟨prev,next⟩ := widens.alone i (List.mem_range'_1.mp listed).1
      exact ⟨prev,next,trivial⟩
  · rw [roots,List.map_append,List.map_append,layout.starts,List.map_map]
    rfl
  · have whole := @List.range'_append_1 0 s.stages.size count
    rw [Nat.zero_add] at whole
    rw [List.flatten_append,size,List.range_eq_range',← whole,← List.range_eq_range']
    refine layout.cover.append (List.Perm.of_eq ?_)
    induction List.range' s.stages.size count with
    | nil => rfl
    | cons i rest ih => rw [List.map_cons,List.flatten_cons,ih]; rfl

theorem Widens.first_of_new {pending : List Nat} {i o : Nat} (widens : Widens s t)
    (sound : Sound s pending) (behind : (t.pipe p).splitter = some i)
    (holds : (t.stage i).operation = some o) (new : s.operations.size ≤ o) :
    (s.pipe p).splitter = none := by
  cases earlier : (s.pipe p).splitter with
  | none => rfl
  | some j =>
    obtain ⟨old,_,duplicates⟩ := sound.splitting p j earlier
    obtain rfl : j = i := Option.some.inj ((widens.splitter p j earlier).symm.trans behind)
    obtain ⟨more,kept⟩ := widens.stage j (inside_of_holds (by simp [duplicates.holds]))
    rw [kept] at holds
    obtain rfl : old = o := Option.some.inj (duplicates.holds.symm.trans holds)
    exact absurd (sound.holding.inside j old duplicates.holds) (Nat.not_lt.mpr new)

end Exports

end Session

namespace Account

/-- The split behind a pipe is still there, with more outputs at its end if any, and counts
them. -/
structure Lengthens (s t : Session) (i p : Nat) : Prop where
  behind : t.Behind i p
  outputs : (s.stage i).outputs.toList <+: (t.stage i).outputs.toList
  operation : ∃ o, (s.stage i).operation = some o ∧
    t.operation o = { s.operation o with args := toString (t.stage i).outputs.size }

structure Divides (a b : Account) (o i p : Nat) : Prop where
  only : ∀ j, b.session.Behind j p ↔ j = i
  first : ∀ j, ¬ a.session.Behind j p
  holds : (b.session.stage i).operation = some o
  operation : b.session.operation o =
    duplicator (b.session.pipe p).media (b.session.stage i).outputs.size
  before : (a.consumersOf p).length ≤ 1
  after : 2 ≤ (b.consumersOf p).length

/-- What `b` has more than `a`, after the exports of a completed graph. -/
structure Completes (a b : Account) (exports : List (String × PipeId)) : Prop where
  operations : ∀ o, o < a.session.operations.size →
    b.session.operation o =
      { a.session.operation o with args := (b.session.operation o).args } ∧
    (a.session.divides o = false → b.session.operation o = a.session.operation o)
  stages : ∀ i, i < a.session.stages.size →
    b.session.stage i = { a.session.stage i with outputs := (b.session.stage i).outputs } ∧
    (¬ a.session.Made i → b.session.stage i = a.session.stage i)
  sequences : ∃ more : List Nat,
    b.session.sequences = a.session.sequences ++ more.map fun i => [i]
  splits : ∀ i p, a.session.Behind i p → Lengthens a.session b.session i p
  own : b.session.ownOperations = a.session.ownOperations ++ identities exports a.session
  added : ∀ o, a.session.operations.size ≤ o → b.session.divides o = true →
    ∃ i p, Divides a b o i p

section Completed
variable {catalog : Catalog} {a b : Account} {exports : List (String × PipeId)} {t : Session}

theorem lengthens_of_behind (before : Ledger.Kept ⟨a.session,a.put,a.took,[]⟩)
    (after : Ledger.Kept ⟨b.session,b.put,b.took,[]⟩) (widens : Widens a.session b.session)
    {i p : Nat} (behind : a.session.Behind i p) : Lengthens a.session b.session i p := by
  have splitter := (behind_iff before).mp behind
  obtain ⟨o,x,duplicates⟩ := before.1.splitting p i splitter
  obtain ⟨more,stage⟩ := widens.stage i (inside_of_holds (by simp [duplicates.holds]))
  have still := widens.splitter p i splitter
  obtain ⟨o',x',duplicates'⟩ := after.1.splitting p i still
  obtain rfl : o = o' := by
    have holds := duplicates'.holds
    rw [stage] at holds
    exact Option.some.inj (duplicates.holds.symm.trans holds)
  obtain ⟨args,operation⟩ := widens.operation o (before.1.holding.inside i o duplicates.holds)
  refine ⟨(behind_iff after).mpr still,by simp [stage],o,duplicates.holds,?_⟩
  have settled := congrArg Operation.args duplicates'.operation
  rw [operation] at settled ⊢
  change args = _ at settled
  rw [settled]
  rfl

theorem divides_of_new (before : Ledger.Kept ⟨a.session,a.put,a.took,[]⟩)
    (after : Ledger.Kept ⟨b.session,b.put,b.took,[]⟩) (widens : Widens a.session b.session)
    (closings : Closings ⟨a.session,a.put,a.took,[]⟩ ⟨b.session,b.put,b.took,[]⟩) {o : Nat}
    (new : a.session.operations.size ≤ o) (divided : b.session.divides o = true) :
    ∃ i p, Divides a b o i p := by
  obtain ⟨i,⟨p,behind⟩,holds⟩ := divides_iff.mp divided
  obtain ⟨o',x,duplicates⟩ := after.1.splitting p i behind
  obtain rfl : o' = o := Option.some.inj (duplicates.holds.symm.trans holds)
  have first := widens.first_of_new before.1 behind holds new
  have own := Closings.unshared closings before duplicates.own
  refine ⟨i,p,?_⟩
  constructor
  case only =>
    intro j
    rw [behind_iff after,behind,Option.some.injEq]
    exact eq_comm
  case first =>
    intro j
    rw [behind_iff before,first]
    exact nofun
  case holds => exact holds
  case operation => exact duplicates.operation
  case before => exact consumers_few (by simp) before own first
  case after => exact consumers_many after behind

/-- Completing a graph leaves what callers have made as it is, and adds what exports under
other names and second consumers need, and nothing else. -/
theorem complete_adds (reached : Reached catalog a) (known : a.Knows (.complete exports))
    (completed : complete exports a.session = .ok () t) :
    a.Completes (a.after (.complete exports) () t) exports := by
  have before := reached.consistent
  have after := before.after known completed
  obtain ⟨_,v,exported,_,same⟩ := complete_ok.mp completed
  have outer (entry : String × PipeId) (member : entry ∈ exports) :
      a.session.OuterPipe entry.2.index :=
    ((known.issued before).pipe entry.2 (List.mem_map_of_mem member)).2
  obtain ⟨widensV,steadyV,ownV⟩ := exportAll_widens before.kept outer exported
  have widens : Widens a.session t := by
    rw [same]
    exact widensV.trans (.of_same rfl rfl rfl fun _ => rfl)
  have operation (o : Nat) : t.operation o = v.operation o := by rw [same]; rfl
  have stage (i : Nat) : t.stage i = v.stage i := by rw [same]; rfl
  constructor
  case operations =>
    intro o old
    obtain ⟨args,kept⟩ := widens.operation o old
    refine ⟨?_,fun own => ?_⟩
    · change t.operation o = { a.session.operation o with args := (t.operation o).args }
      rw [kept]
    · exact (operation o).trans (steadyV.operation o (outerOperation_iff.mpr ⟨old,own⟩))
  case stages =>
    intro i old
    obtain ⟨more,kept⟩ := widens.stage i old
    refine ⟨?_,fun own => (stage i).trans (steadyV.stage i ⟨old,own⟩)⟩
    change t.stage i = { a.session.stage i with outputs := (t.stage i).outputs }
    rw [kept]
  case sequences =>
    obtain ⟨chains,layout⟩ := before.kept.1.layout
    obtain ⟨more,wider⟩ := layout.widened widens
    exact ⟨more,by rw [← layout.eq_sequences]; exact wider.eq_sequences.symm⟩
  case splits => exact fun i p behind => lengthens_of_behind before.kept after.kept widens behind
  case own =>
    refine Eq.trans ?_ ownV
    rw [same]
    exact ownOperations_congr (fun _ => rfl) rfl fun _ => rfl
  case added =>
    exact fun o => divides_of_new before.kept after.kept widens
      (perform_reaches before.kept (known.issued before) completed).1.closings

theorem complete_adds_twice : ∃ a t, run? scaledSource (.new 0 .empty) = some a ∧
    complete [("a",⟨0,1⟩),("b",⟨0,1⟩)] a.session = .ok () t ∧
    a.Completes (a.after (.complete [("a",⟨0,1⟩),("b",⟨0,1⟩)]) () t) [("a",⟨0,1⟩),("b",⟨0,1⟩)] ∧
    t.ownOperations.drop a.session.ownOperations.length = [.named "null"] := by
  have runs : (run? scaledSource (.new 0 .empty)).any (fun a =>
      decide (a.Knows (.complete [("a",⟨0,1⟩),("b",⟨0,1⟩)])) &&
        succeeds (complete [("a",⟨0,1⟩),("b",⟨0,1⟩)]) a.session fun _ t =>
          t.ownOperations.drop a.session.ownOperations.length == [.named "null"]) = true := by
    decide +kernel
  obtain ⟨a,ran,facts⟩ := (Option.any_eq_true ..).mp runs
  simp only [Bool.and_eq_true,decide_eq_true_eq] at facts
  obtain ⟨known,succeeded⟩ := facts
  obtain ⟨⟨⟩,t,completed,added⟩ := ok_of_succeeds succeeded
  exact ⟨a,t,ran,completed,complete_adds ((Reached.new 0).run ran) known completed,eq_of_beq added⟩

end Completed
end Account
end MediaGraph
