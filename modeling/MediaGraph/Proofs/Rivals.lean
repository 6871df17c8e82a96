import MediaGraph.Proofs.Consumers
import MediaGraph.Proofs.WellFormed

/-! Exports that want the same name.
An export leaves a reader that bears its name, and the check at the end does not let two
readers bear one name. Only the first of two exports of a pipe that nothing else was put on
keeps its name and takes it away from the second one. -/
namespace MediaGraph.Session

/-- Reader `x` leaves the graph with a pipe of its own that goes by a chosen name. -/
structure Bears (s : Session) (x : Nat) (name : String) : Prop where
  bound : x < s.readers.size
  owner : (s.reader x).owner = .exported
  own : (s.pipe (s.reader x).pipe).shared = false
  name : (s.pipe (s.reader x).pipe).name = name
  fixed : (s.pipe (s.reader x).pipe).fixed = true

section Steps
variable {s t : Session} {x : Nat} {name : String}

theorem Bears.of_undisturbed (bears : Bears s x name) (same : Undisturbed s t)
    (streamed : Streamed s t (s.reader x).pipe) : Bears t x name := by
  obtain ⟨owner,pipe,_⟩ := same.reader x bears.bound
  obtain ⟨called,fixed⟩ := same.called _ bears.fixed
  refine ⟨Nat.lt_of_lt_of_le bears.bound same.size,owner.trans bears.owner,?_,?_,?_⟩
  · rw [pipe,streamed.shared]
    exact bears.own
  · rw [pipe,called]
    exact bears.name
  · rw [pipe]
    exact fixed

theorem Bears.moveTo (bears : Bears s x name) {i o r : Nat} (bound : r < s.readers.size)
    (inside : ∀ y, y < s.readers.size → (s.reader y).pipe < s.pipes.size)
    (apart : x = r ∨ (s.reader x).pipe ≠ (s.reader r).pipe ∨ (s.reader r).owner ≠ .exported) :
    Bears (s.moveTo i o r) x name := by
  have readers := reader_moveTo s i o r x bound
  have pipes (p : Nat) := pipe_moveTo s i o r p (inside r bound)
  have size : (s.moveTo i o r).readers.size = s.readers.size := Array.size_modify
  by_cases mine : x = r
  · subst mine
    rw [if_pos rfl] at readers
    constructor
    case bound => exact size ▸ bears.bound
    case owner => rw [readers]; exact bears.owner
    all_goals
      rw [readers,pipes,if_pos rfl]
      simp [branchFor,bears.owner,bears.name,bears.fixed]
  · rw [if_neg mine] at readers
    have old : (s.reader x).pipe ≠ s.pipes.size := Nat.ne_of_lt (inside x bears.bound)
    have kept : ((s.moveTo i o r).pipe (s.reader x).pipe).shared = (s.pipe (s.reader x).pipe).shared ∧
        ((s.moveTo i o r).pipe (s.reader x).pipe).name = (s.pipe (s.reader x).pipe).name ∧
        ((s.moveTo i o r).pipe (s.reader x).pipe).fixed = (s.pipe (s.reader x).pipe).fixed := by
      rw [pipes,if_neg old]
      split
      next together =>
        have stays := (apart.resolve_left mine).resolve_left fun other => other together
        simp [deserted,stays]
      next => exact ⟨rfl,rfl,rfl⟩
    exact ⟨size ▸ bears.bound,by rw [readers]; exact bears.owner,
      by rw [readers,kept.1]; exact bears.own,by rw [readers,kept.2.1]; exact bears.name,
      by rw [readers,kept.2.2]; exact bears.fixed⟩

theorem Bears.of_addReader {p : Nat} (inside : p < s.pipes.size) (own : (s.pipe p).shared = false)
    (called : (s.pipe p).name = name) (fixed : (s.pipe p).fixed = true) :
    Bears (s.addReader p .exported) s.readers.size name := by
  have new : (s.addReader p .exported).reader s.readers.size = ⟨p,.exported,false⟩ := by
    rw [reader_addReader,if_pos rfl]
  have pipe : (s.addReader p .exported).pipe p = note [s.readers.size] (s.pipe p) := by
    rw [pipe_addReader,if_pos ⟨rfl,inside⟩]
  constructor
  case bound => simp [addReader_eq]
  case owner => rw [new]
  all_goals
    rw [new,pipe]
    simp [own,called,fixed]

theorem Turn.bears {l m : Ledger} (turn : Turn l m) (kept : l.Kept) (bears : Bears l.session x name)
    (still : (l.session.reader x).resolved = true ∨
      ∀ r ∈ l.pending.head?, r = x ∨ (l.session.reader r).owner ≠ .exported) :
    Bears m.session x name := by
  have sound := kept.1
  have inside := sound.reading.inside x bears.bound
  rcases turn.undisturbed sound with same | ⟨s,_,_,r,rest,i,o,rfl,behind,holds,moved⟩
  · exact bears.of_undisturbed same (turn.streamed sound inside)
  rw [moved]
  refine bears.moveTo (sound.reading.waiting r (by simp)) (fun y => sound.reading.inside y) ?_
  rcases still with resolved | first
  · refine or_iff_not_imp_left.mpr fun other => .inl fun together => ?_
    -- The pipe is the split's by now, and cannot be the reader's as well.
    obtain ⟨_,d,duplicates⟩ := sound.splitting _ i behind
    have own : (s.pipe (s.reader r).pipe).shared = false := duplicates.own
    have mine : s.Takes (r :: rest) x (s.reader r).pipe := by
      refine ⟨resolved,fun listed => ?_,together⟩
      have late : x ∈ rest := (List.mem_cons.mp listed).resolve_left other
      simp [kept.2.idle x late] at resolved
    have split : s.Takes (r :: rest) d (s.reader r).pipe := by
      refine ⟨by rw [duplicates.reader],fun listed => ?_,by rw [duplicates.reader]⟩
      exact sound.outer d listed i (by rw [duplicates.reader]) ⟨_,behind⟩
    have same := sound.reading.sole _ own x d mine split
    have owner := bears.owner
    simp [same,duplicates.reader] at owner
  · rcases first r (by simp) with same | stays
    · exact .inl same.symm
    · exact .inr (.inr stays)

theorem Turn.resolved {l m : Ledger} (turn : Turn l m) (sound : Sound l.session l.pending)
    (resolved : (l.session.reader x).resolved = true) : (m.session.reader x).resolved = true := by
  rcases turn.undisturbed sound with same | ⟨s,_,_,r,_,i,o,rfl,_,_,moved⟩
  · exact (same.reader x (inside_of_resolved resolved)).2.2 resolved
  · rw [moved,reader_moveTo s i o r x (sound.reading.waiting r (by simp))]
    split
    · rfl
    · exact resolved

theorem Turns.bears {l m : Ledger} (turns : Turns l m) (kept : l.Kept)
    (bears : Bears l.session x name) (resolved : (l.session.reader x).resolved = true) :
    Bears m.session x name ∧ (m.session.reader x).resolved = true := by
  induction turns with
  | refl => exact ⟨bears,resolved⟩
  | tail turns turn ih =>
    have keptNow := (Turns.moves turns).kept kept
    exact ⟨turn.bears keptNow ih.1 (.inl ih.2),turn.resolved keptNow.1 ih.2⟩

theorem Closing.bears {l m : Ledger} (closing : Closing l m) (kept : l.Kept)
    (bears : Bears l.session x name) (resolved : (l.session.reader x).resolved = true) :
    Bears m.session x name ∧ (m.session.reader x).resolved = true := by
  cases closing with
  | leave s _ _ p =>
    have record := addReader_eq p .exported s
    have reader : (s.addReader p .exported).reader x = s.reader x := by
      rw [reader_addReader,if_neg (Nat.ne_of_lt bears.bound)]
    have same (q : Nat) : ((s.addReader p .exported).pipe q).shared = (s.pipe q).shared ∧
        ((s.addReader p .exported).pipe q).name = (s.pipe q).name ∧
        ((s.addReader p .exported).pipe q).fixed = (s.pipe q).fixed := by
      rw [pipe_addReader]
      split <;> simp
    have bound : x < s.readers.size := bears.bound
    refine ⟨⟨?_,by rw [reader]; exact bears.owner,by rw [reader,(same _).1]; exact bears.own,
      by rw [reader,(same _).2.1]; exact bears.name,by rw [reader,(same _).2.2]; exact bears.fixed⟩,
      by rw [reader]; exact resolved⟩
    simp only [record,Array.size_push]
    omega
  | close => exact ⟨⟨bears.bound,bears.owner,bears.own,bears.name,bears.fixed⟩,resolved⟩
  | move _ _ move =>
    have inside := kept.1.reading.inside x bears.bound
    rcases move.undisturbed with same | turn
    · exact ⟨bears.of_undisturbed same (move.streamed kept.1 inside),
        (same.reader x bears.bound).2.2 resolved⟩
    · exact ⟨turn.bears kept bears (.inl resolved),turn.resolved kept.1 resolved⟩

theorem Closings.bears {l m : Ledger} (closings : Closings l m) (kept : l.Kept)
    (bears : Bears l.session x name) (resolved : (l.session.reader x).resolved = true) :
    Bears m.session x name ∧ (m.session.reader x).resolved = true := by
  induction closings with
  | refl => exact ⟨bears,resolved⟩
  | tail closings closing ih => exact closing.bears (Closings.kept closings kept) ih.1 ih.2

theorem Bears.takes (bears : Bears s x name) (sound : Sound s []) :
    s.Takes [] x (s.reader x).pipe := by
  have active : s.Active x := by
    rw [Active,bears.owner]
    trivial
  exact ⟨by simpa using (sound.reading.active x bears.bound).mp active,by simp,rfl⟩

theorem Checked.sole (checked : s.Checked) (sound : Sound s []) {y : Nat} (first : Bears s x name)
    (second : Bears s y name) : x = y := by
  have taken (z : Nat) (bears : Bears s z name) :=
    (sound.reading.taken _ bears.own).mpr ⟨z,bears.takes sound⟩
  have same := checked.names _ _ (by simp [taken x first]) (by simp [taken y second])
    (first.name.trans second.name.symm)
  exact sound.reading.sole _ second.own x y (same ▸ first.takes sound) (second.takes sound)

theorem Turn.readers_le {l m : Ledger} (turn : Turn l m) (sound : Sound l.session l.pending) :
    l.session.readers.size ≤ m.session.readers.size := by
  rcases turn.undisturbed sound with same | ⟨s,_,_,r,_,i,o,rfl,_,_,moved⟩
  · exact same.size
  · exact Nat.le_of_eq (by rw [moved]; exact Array.size_modify.symm)

theorem Moves.readers_le {l m : Ledger} (moves : Moves l m) (kept : l.Kept) :
    l.session.readers.size ≤ m.session.readers.size := by
  induction moves with
  | refl => exact Nat.le_refl _
  | tail moves move ih =>
    refine Nat.le_trans ih ?_
    rcases move.undisturbed with same | turn
    · exact same.size
    · exact turn.readers_le (Moves.kept moves kept).1

end Steps

section Entries
variable {s t : Session} {put : List (Nat × Nat)} {took : List Nat} {u : Unit} {name : String}

/-- The reader that had the pipe before the new one, which is the export, bears the name
afterwards if it is an export too; otherwise the new reader does. -/
theorem resolve_bears {e : Nat} (kept : Ledger.Kept ⟨s,put,took,[e]⟩) (bears : Bears s e name)
    (idle : (s.reader e).resolved = false) (called : resolve e s = .ok u t) :
    Bears t e name ∨ ∃ d, d ≠ e ∧ (s.pipe (s.reader e).pipe).splitter = none ∧
      (s.reader d).resolved = true ∧ (s.reader d).pipe = (s.reader e).pipe ∧ Bears t d name := by
  have alone (x : Nat) (member : x ∈ [e]) : (s.reader x).resolved = false :=
    List.mem_singleton.mp member ▸ idle
  have turns := (resolve_ok kept alone called).1
  rcases resolve_cases kept alone called with
    ⟨free,rfl⟩ | ⟨i,o,behind,holds,room,rfl⟩ | ⟨d,helper,v,own,first,takes,kind,moved,rfl⟩
  · exact .inl ((Turn.take s put took e [] free).bears kept bears (.inr (by simp)))
  · exact .inl ((Turn.move s put took e [] i o behind holds room).bears kept bears (.inr (by simp)))
  have other : d ≠ e := fun same => takes.2.1 (by simp [same])
  by_cases leaves : (s.reader d).owner = .exported
  · -- The export that had the pipe stands under the same name, and moves with it.
    have before : Bears s d name := by
      refine ⟨inside_of_resolved takes.1,leaves,?_,?_,?_⟩
      all_goals rw [takes.2.2]
      · exact bears.own
      · exact bears.name
      · exact bears.fixed
    exact .inr ⟨d,other,first,takes.1,takes.2.2,(Turns.bears turns kept before takes.1).1⟩
  · have attach := Turn.attach s put took e [] d helper alone own first takes kind
    have keptU := (Turns.moves (.single attach)).kept kept
    have bearsU := attach.bears kept bears (.inr (by simp))
    have taker : (s.attach (s.reader e).pipe helper).reader d = s.reader d := by
      rw [reader_attach,if_neg (Nat.ne_of_lt (inside_of_resolved takes.1))]
    obtain ⟨before,same,behind,holds,one⟩ := turns_attach kept alone own first takes kind moved
    have bearsV : Bears v e name := by
      rw [moved]
      exact bearsU.moveTo (keptU.1.reading.waiting d (by simp))
        (fun y => keptU.1.reading.inside y) (.inr (.inr (by rw [taker]; exact leaves)))
    rw [← same e (by simp)] at behind
    have room : (v.stage s.stages.size).outputs.size < outputLimit := by simp [one,outputLimit]
    exact .inl ((Turn.move v put took e [] _ _ behind holds room).bears (before.moves.kept kept)
      bearsV (.inr (by simp)))

/-- An export leaves a reader that bears its name: the one that it makes, or the only consumer
that its pipe had before. -/
theorem exportPipe_bears {id : PipeId} (kept : Ledger.Kept ⟨s,put,took,[]⟩)
    (outer : s.OuterPipe id.index) (own : (s.pipe id.index).shared = false)
    (chosen : ¬ Generated name) (called : exportPipe name id s = .ok u t) :
    ∃ x, Bears t x name ∧
      ((∃ target, (x,target) ∈ exportReaders name id.index s ∧ s.readers.size ≤ x ∧
          (target = id.index ∧ ((s.pipe id.index).fixed = true → (s.pipe id.index).name = name) ∨
            s.pipes.size ≤ target)) ∨
        consumers put took id.index = [x]) := by
  obtain ⟨target,v,more,_,shape,readers,moves,_,known,title,fixed,place,resolved⟩ :=
    exportPipe_opened kept outer called
  have keptV := Moves.kept moves kept
  have settled : (v.pipe target).fixed = true := by
    cases now : (v.pipe target).fixed with
    | true => rfl
    | false => exact absurd (fixed now) chosen
  have ownV : (v.pipe target).shared = false := by
    rcases place with ⟨rfl,_⟩ | ⟨_,i,o,_,_,_,through⟩
    · exact (Closings.streamed (Moves.closings moves) kept outer).shared.trans own
    · exact keptV.1.feeding.own i target (by simp [through.pads])
  let w := v.addReader target .exported
  have left := Closing.leave v (put ++ more) (took ++ more.map (·.1)) target known.1 known.2
  have new : w.reader v.readers.size = ⟨target,.exported,false⟩ := by
    rw [reader_addReader,if_pos rfl]
  have pipe : w.pipe target = note [v.readers.size] (v.pipe target) := by
    rw [pipe_addReader,if_pos ⟨rfl,known.1⟩]
  have bears := Bears.of_addReader known.1 ownV title settled
  rcases resolve_bears (left.kept keptV) bears (by rw [new]) resolved with
    mine | ⟨d,other,first,had,points,moved⟩
  · refine ⟨_,mine,.inl ⟨target,by simp [readers],Moves.readers_le moves kept,?_⟩⟩
    exact place.imp_right And.left
  · have old : w.reader d = v.reader d := by rw [reader_addReader,if_neg other]
    rw [new,pipe,note_splitter] at first
    rw [old] at had points
    rw [new] at points
    let b : Account := ⟨v,[],[],[],put ++ more,took ++ more.map (·.1)⟩
    have keptB : Ledger.Kept ⟨b.session,b.put,b.took,[]⟩ := keptV
    have only : consumers (put ++ more) (took ++ more.map (·.1)) target = [d] :=
      Account.consumers_sole keptB ownV first known.2 ((Account.reads_iff keptB).mpr ⟨had,points⟩)
    have placed : (d,target) ∈ put ++ more :=
      (mem_consumers.mp (by rw [only]; exact List.mem_singleton_self d)).2
    have same : target = id.index := by
      by_contra apart
      have late : s.pipes.size ≤ target := (place.resolve_left fun same => apart same.1).1
      rw [shape,if_neg apart] at placed
      rcases List.mem_append.mp placed with before | last
      · exact absurd (kept.2.placed d target before).2.1 (Nat.not_lt.mpr late)
      · simp only [List.mem_singleton,Prod.mk.injEq] at last
        exact apart last.2
    subst same
    rw [if_pos rfl] at shape
    subst shape
    exact ⟨d,moved,.inr (by simpa using only)⟩

end Entries

/-! How many consumers a pipe has, and how long it keeps its name. -/

section Counts
variable {s t : Session} {put : List (Nat × Nat)} {took : List Nat} {u : Unit} {p : Nat}

theorem consumers_grow (put more : List (Nat × Nat)) (took : List Nat) (p : Nat) :
    (consumers put took p).length + more.countP (fun placed => placed.2 = p) ≤
      (consumers (put ++ more) (took ++ more.map (·.1)) p).length := by
  rw [consumers,consumers,List.filter_append,List.length_append,← List.countP_eq_length_filter,
    ← List.countP_eq_length_filter,← List.countP_eq_length_filter,List.countP_map]
  refine Nat.add_le_add (List.countP_mono_left fun r _ before => ?_)
    (List.countP_mono_left fun placed member mine => ?_)
  · simp only [decide_eq_true_eq] at before ⊢
    exact List.mem_append_left _ before
  · simp only [decide_eq_true_eq,Function.comp_apply] at mine ⊢
    exact List.mem_append_right _ (mine ▸ member)

theorem exportReaders_count {name : String} {id : PipeId} (kept : Ledger.Kept ⟨s,put,took,[]⟩)
    (outer : s.OuterPipe id.index) (called : exportPipe name id s = .ok u t) :
    (if id.index = p then 1 else 0) ≤
      (exportReaders name id.index s).countP fun placed => placed.2 = p := by
  obtain ⟨_,_,e,target,more,readers,place,_⟩ := exportPipe_ok kept outer called
  split
  next same =>
    subst same
    rw [readers]
    rcases place with ⟨rfl,rfl⟩ | ⟨r,rfl,_⟩ <;> simp [List.countP_cons]
  next => exact Nat.zero_le _

theorem exportAll_consumers {exports : List (String × PipeId)}
    (kept : Ledger.Kept ⟨s,put,took,[]⟩) (outer : ∀ entry ∈ exports, s.OuterPipe entry.2.index)
    (called : exportAll exports s = .ok u t) :
    exports.countP (fun entry => entry.2.index = p) ≤
      (exportsReaders exports s).countP fun placed => placed.2 = p := by
  induction exports generalizing s put took with
  | nil => simp
  | cons entry rest ih =>
    obtain ⟨name,id⟩ := entry
    obtain ⟨_,v,exported,called⟩ := bind_ok.mp called
    have known := outer (name,id) (by simp)
    have one := exportReaders_count (p := p) kept known exported
    obtain ⟨first,_⟩ := exportPipe_ok kept known exported
    have later := Closings.later first kept
    have more := ih (Closings.kept first kept)
      (fun other member => later.pipe _ (outer other (by simp [member]))) called
    rw [exportsReaders,exported,List.countP_cons,List.countP_append]
    simp only [decide_eq_true_eq]
    rw [Nat.add_comm]
    exact Nat.add_le_add one more

theorem exportAll_append {before after : List (String × PipeId)}
    (called : exportAll (before ++ after) s = .ok u t) :
    ∃ v, exportAll before s = .ok () v ∧ exportAll after v = .ok u t := by
  induction before generalizing s with
  | nil => exact ⟨s,rfl,called⟩
  | cons entry rest ih =>
    obtain ⟨_,v,exported,called⟩ := bind_ok.mp called
    obtain ⟨w,done,more⟩ := ih called
    exact ⟨w,bind_ok.mpr ⟨_,v,exported,done⟩,more⟩

theorem Closing.splitter {l m : Ledger} (closing : Closing l m) (sound : Sound l.session l.pending)
    {i : Nat} (behind : (l.session.pipe p).splitter = some i) :
    (m.session.pipe p).splitter = some i := by
  cases closing with
  | leave s _ _ q =>
    rw [pipe_addReader]
    split
    · rw [note_splitter]
      exact behind
    · exact behind
  | close => exact behind
  | move _ _ move =>
    by_cases quiet : l.pending = []
    · rw [(move.untouched sound quiet).splitters]
      exact behind
    · cases move with
      | turn _ _ turn => exact turn.splitter sound behind
      | _ => exact absurd rfl quiet

theorem Closing.titled {l m : Ledger} (closing : Closing l m) (sound : Sound l.session l.pending)
    (fixed : (l.session.pipe p).fixed = true) (whole : (m.session.pipe p).splitter = none) :
    (m.session.pipe p).name = (l.session.pipe p).name ∧ (m.session.pipe p).fixed = true := by
  cases closing with
  | leave s _ _ q =>
    rw [pipe_addReader]
    split
    · simp [fixed]
    · exact ⟨rfl,fixed⟩
  | close => exact ⟨rfl,fixed⟩
  | move _ _ move =>
    rcases move.undisturbed with same | turn
    · exact same.called p fixed
    rcases turn.undisturbed sound with same | ⟨s,_,_,r,_,i,o,rfl,behind,_,moved⟩
    · exact same.called p fixed
    have inside := sound.reading.inside r (sound.reading.waiting r (by simp))
    have other : p ≠ (s.reader r).pipe := by
      rintro rfl
      rw [moved,splitter_moveTo s i o r _ inside,behind] at whole
      cases whole
    rw [moved,pipe_moveTo s i o r p inside,if_neg (ne_of_fixed fixed),if_neg other]
    exact ⟨rfl,fixed⟩

theorem Closings.titled {l m : Ledger} (closings : Closings l m) (kept : l.Kept)
    (fixed : (l.session.pipe p).fixed = true) (whole : (m.session.pipe p).splitter = none) :
    (m.session.pipe p).name = (l.session.pipe p).name ∧ (m.session.pipe p).fixed = true := by
  induction closings with
  | refl => exact ⟨rfl,fixed⟩
  | @tail b c closings closing ih =>
    have sound := (Closings.kept closings kept).1
    have before : (b.session.pipe p).splitter = none := by
      cases behind : (b.session.pipe p).splitter with
      | none => rfl
      | some i => simp [closing.splitter sound behind] at whole
    obtain ⟨name,still⟩ := ih before
    obtain ⟨now,fixed⟩ := closing.titled sound still whole
    exact ⟨now.trans name,fixed⟩

/-- Readers that were put on a pipe stay there, and every entry for a pipe adds a consumer. -/
structure Stretch (l m : Ledger) (exports : List (String × PipeId)) : Prop where
  closings : Closings l m
  kept : m.Kept
  put : l.put ⊆ m.put
  count : ∀ p, (consumers l.put l.took p).length +
    exports.countP (fun entry => entry.2.index = p) ≤ (consumers m.put m.took p).length

theorem exportAll_stretch {exports : List (String × PipeId)} (kept : Ledger.Kept ⟨s,put,took,[]⟩)
    (outer : ∀ entry ∈ exports, s.OuterPipe entry.2.index) (called : exportAll exports s = .ok u t) :
    ∃ put' took', Stretch ⟨s,put,took,[]⟩ ⟨t,put',took',[]⟩ exports := by
  have closings := exportAll_closings kept outer called
  refine ⟨_,_,closings,Closings.kept closings kept,List.subset_append_left ..,fun p => ?_⟩
  have more := exportAll_consumers (p := p) kept outer called
  have grown := consumers_grow put (exportsReaders exports s) took p
  simp only
  omega

theorem exportPipe_stretch {name : String} {id : PipeId} (kept : Ledger.Kept ⟨s,put,took,[]⟩)
    (outer : s.OuterPipe id.index) (called : exportPipe name id s = .ok u t) :
    ∃ put' took', Stretch ⟨s,put,took,[]⟩ ⟨t,put',took',[]⟩ [(name,id)] ∧
      exportReaders name id.index s ⊆ put' := by
  obtain ⟨closings,_⟩ := exportPipe_ok kept outer called
  refine ⟨_,_,⟨closings,Closings.kept closings kept,List.subset_append_left ..,fun p => ?_⟩,
    List.subset_append_right ..⟩
  have one := exportReaders_count (p := p) kept outer called
  have grown := consumers_grow put (exportReaders name id.index s) took p
  simp only [List.countP_singleton,decide_eq_true_eq]
  omega

theorem Stretch.trans {l m n : Ledger} {early late : List (String × PipeId)}
    (first : Stretch l m early) (second : Stretch m n late) : Stretch l n (early ++ late) where
  closings := first.closings.trans second.closings
  kept := second.kept
  put := List.Subset.trans first.put second.put
  count p := by
    have begun := first.count p
    have done := second.count p
    rw [List.countP_append]
    omega

theorem Stretch.alone {l m : Ledger} {before between : List (String × PipeId)}
    {entry : String × PipeId} (stretch : Stretch l m (before ++ entry :: between))
    (one : (consumers m.put m.took entry.2.index).length = 1) :
    consumers l.put l.took entry.2.index = [] ∧
      ∀ other ∈ before ++ between, other.2.index ≠ entry.2.index := by
  have count := stretch.count entry.2.index
  rw [one,List.countP_append,List.countP_cons_of_pos (by simp)] at count
  have noneBefore : before.countP (fun other => other.2.index = entry.2.index) = 0 := by omega
  have noneBetween : between.countP (fun other => other.2.index = entry.2.index) = 0 := by omega
  refine ⟨List.length_eq_zero_iff.mp (by omega),fun other member => ?_⟩
  rcases List.mem_append.mp member with early | late
  · simpa using List.countP_eq_zero.mp noneBefore other early
  · simpa using List.countP_eq_zero.mp noneBetween other late

theorem whole_of_unread (kept : Ledger.Kept ⟨s,put,took,[]⟩) (unread : consumers put took p = []) :
    (s.pipe p).splitter = none := by
  cases behind : (s.pipe p).splitter with
  | none => rfl
  | some i =>
    let b : Account := ⟨s,[],[],[],put,took⟩
    have many : 2 ≤ (consumers put took p).length := Account.consumers_many (a := b) kept behind
    simp [unread] at many

end Counts

section Pairs
variable {s t : Session} {put : List (Nat × Nat)} {took : List Nat} {u : Unit}
  {name : String} {p q : PipeId} {before between after : List (String × PipeId)}

/-- Of two exports under one name each leaves a reader that bears it, unless they are the
first two readers of one pipe. -/
theorem two_bear (kept : Ledger.Kept ⟨s,put,took,[]⟩)
    (outer : ∀ entry ∈ before ++ (name,p) :: between ++ (name,q) :: after,
      s.OuterPipe entry.2.index)
    (ownP : (s.pipe p.index).shared = false) (ownQ : (s.pipe q.index).shared = false)
    (chosen : ¬ Generated name)
    (called : exportAll (before ++ (name,p) :: between ++ (name,q) :: after) s = .ok u t) :
    (∃ x y, x ≠ y ∧ Bears t x name ∧ Bears t y name) ∨
      p.index = q.index ∧ consumers put took p.index = [] ∧
        (∀ entry ∈ before ++ between, entry.2.index ≠ p.index) ∧
        ((s.pipe p.index).fixed = true → (s.pipe p.index).name = name) := by
  obtain ⟨s₂,called,last⟩ := exportAll_append called
  obtain ⟨s₁,start,called⟩ := exportAll_append called
  obtain ⟨_,t₁,first,middle⟩ := bind_ok.mp called
  obtain ⟨_,t₂,second,finish⟩ := bind_ok.mp last
  have knownP := outer (name,p) (by simp)
  have knownQ := outer (name,q) (by simp)
  -- The ledgers before and after each of the two entries.
  obtain ⟨put₁,took₁,toFirst⟩ :=
    exportAll_stretch kept (fun entry member => outer entry (by simp [member])) start
  have later₁ := Closings.later toFirst.closings kept
  obtain ⟨_,_,atFirst,madeP⟩ := exportPipe_stretch toFirst.kept (later₁.pipe _ knownP) first
  have laterP := later₁.trans (Closings.later atFirst.closings toFirst.kept)
  obtain ⟨put₂,took₂,toSecond⟩ := exportAll_stretch atFirst.kept
    (fun entry member => laterP.pipe _ (outer entry (by simp [member]))) middle
  have later₂ := laterP.trans (Closings.later toSecond.closings atFirst.kept)
  obtain ⟨_,_,atSecond,_⟩ := exportPipe_stretch toSecond.kept (later₂.pipe _ knownQ) second
  have laterQ := later₂.trans (Closings.later atSecond.closings toSecond.kept)
  have toEnd := exportAll_closings atSecond.kept
    (fun entry member => laterQ.pipe _ (outer entry (by simp [member]))) finish
  have own₁ := (Closings.streamed toFirst.closings kept knownP).shared.trans ownP
  have own₂ := (Closings.streamed (toFirst.closings.trans (atFirst.closings.trans
    toSecond.closings)) kept knownQ).shared.trans ownQ
  obtain ⟨x,bearsX,howX⟩ := exportPipe_bears toFirst.kept (later₁.pipe _ knownP) own₁ chosen first
  obtain ⟨y,bearsY,howY⟩ := exportPipe_bears toSecond.kept (later₂.pipe _ knownQ) own₂ chosen second
  obtain ⟨bearsX₂,hadX₂⟩ := Closings.bears toSecond.closings atFirst.kept bearsX
    (bearsX.takes atFirst.kept.1).1
  have bearsXt := (Closings.bears (atSecond.closings.trans toEnd) toSecond.kept bearsX₂ hadX₂).1
  have bearsYt := (Closings.bears toEnd atSecond.kept bearsY (bearsY.takes atSecond.kept.1).1).1
  by_cases same : x = y
  case neg => exact .inl ⟨x,y,same,bearsXt,bearsYt⟩
  subst same
  rcases howY with ⟨_,_,late,_⟩ | only
  · exact absurd bearsX₂.bound (Nat.not_lt.mpr late)
  -- The first export is the one reader that its pipe has when the second one comes.
  have placed : (x,q.index) ∈ put₂ :=
    (mem_consumers.mp (by rw [only]; exact List.mem_singleton_self x)).2
  have single (z : Nat) (listed : (x,z) ∈ put₂) : z = q.index :=
    toSecond.kept.2.single x z q.index listed placed
  have near : q.index < s₁.pipes.size := (later₁.pipe _ knownQ).1
  obtain ⟨equal,title⟩ : p.index = q.index ∧ (consumers put₁ took₁ p.index = [] →
      (s₁.pipe p.index).fixed = true → (s₁.pipe p.index).name = name) := by
    rcases howX with ⟨target,made,_,⟨rfl,title⟩ | far⟩ | only₁
    · exact ⟨single _ (toSecond.put (madeP made)),fun _ => title⟩
    · have same := single target (toSecond.put (madeP made))
      omega
    · have listed : (x,p.index) ∈ put₁ :=
        (mem_consumers.mp (by rw [only₁]; exact List.mem_singleton_self x)).2
      exact ⟨single _ (toSecond.put (atFirst.put listed)),fun unread => by simp [unread] at only₁⟩
  have one : (consumers put₂ took₂ p.index).length = 1 := by rw [equal,only]; rfl
  have fromFirst : Stretch _ _ ([] ++ (name,p) :: between) := atFirst.trans toSecond
  obtain ⟨unread,_⟩ := fromFirst.alone one
  obtain ⟨alone,others⟩ := (toFirst.trans fromFirst).alone one
  refine .inr ⟨equal,alone,others,fun fixed => ?_⟩
  obtain ⟨same,still⟩ :=
    Closings.titled toFirst.closings kept fixed (whole_of_unread toFirst.kept unread)
  exact same.symm.trans (title unread still)

open Account

/-- Two exports under one name are refused, unless the second one comes for a pipe whose only
consumer is the first one. -/
theorem complete_refuses {catalog : Catalog} {a : Account} {exports : List (String × PipeId)}
    (reached : Reached catalog a) (known : a.Knows (.complete exports))
    (listed : exports = before ++ (name,p) :: between ++ (name,q) :: after)
    (ownP : (a.session.pipe p.index).shared = false)
    (ownQ : (a.session.pipe q.index).shared = false) (chosen : ¬ Generated name)
    (apart : p ≠ q ∨ a.consumersOf p.index ≠ [] ∨ (∃ entry ∈ before ++ between, entry.2 = p) ∨
      (a.session.pipe p.index).fixed = true ∧ (a.session.pipe p.index).name ≠ name) :
    ∃ e t, complete exports a.session = .error e t := by
  cases completed : complete exports a.session with
  | error e t => exact ⟨e,t,rfl⟩
  | ok u t =>
    have consistent := reached.consistent
    obtain ⟨_,v,exported,valid,rfl⟩ := complete_ok.mp completed
    have outer (entry : String × PipeId) (member : entry ∈ exports) :=
      (known.issued consistent).pipe entry.2 (List.mem_map_of_mem member)
    have closings := exportAll_closings consistent.kept (fun entry member => (outer entry member).2)
      exported
    have sound := (Closings.kept closings consistent.kept).1
    subst listed
    rcases two_bear consistent.kept (fun entry member => (outer entry member).2) ownP ownQ chosen
      exported with ⟨x,y,other,first,second⟩ | ⟨same,alone,others,title⟩
    · exact absurd ((validate_ok valid).sole sound first second) other
    · have serial : p.session = q.session :=
        (outer (name,p) (by simp)).1.trans (outer (name,q) (by simp)).1.symm
      rcases apart with differ | consumed | ⟨entry,member,mine⟩ | ⟨fixed,called⟩
      · cases p
        cases q
        simp_all
      · exact absurd alone consumed
      · exact absurd (congrArg PipeId.index mine) (others entry member)
      · exact absurd (title fixed) called

/-- Two exports of one pipe are refused as soon as a third one stands between them. -/
theorem complete_refuses_thrice : ∃ a e t, run? scaledSource (.new 0 .empty) = some a ∧
    complete [("a",⟨0,1⟩),("b",⟨0,1⟩),("a",⟨0,1⟩)] a.session = .error e t := by
  have runs : (run? scaledSource (.new 0 .empty)).any (fun a =>
      decide (a.Knows (.complete [("a",⟨0,1⟩),("b",⟨0,1⟩),("a",⟨0,1⟩)])) &&
        !(a.session.pipe 1).shared) = true := by decide +kernel
  obtain ⟨a,ran,facts⟩ := (Option.any_eq_true ..).mp runs
  simp only [Bool.and_eq_true,decide_eq_true_eq,Bool.not_eq_true'] at facts
  have listed : [("a",(⟨0,1⟩ : PipeId)),("b",⟨0,1⟩),("a",⟨0,1⟩)] =
      [] ++ ("a",⟨0,1⟩) :: [("b",⟨0,1⟩)] ++ ("a",⟨0,1⟩) :: [] := rfl
  obtain ⟨e,t,refused⟩ := complete_refuses ((Reached.new 0).run ran) facts.1 listed facts.2 facts.2
    (not_generated_of_head (by decide)) (.inr (.inr (.inl ⟨("b",⟨0,1⟩),by simp,rfl⟩)))
  exact ⟨a,e,t,ran,refused⟩

/-- Two exports of a pipe that nothing reads are let through: the second one takes the place of
the first one, which is left with a generated name. -/
theorem complete_forgets : ∃ a t, run? scaledSource (.new 0 .empty) = some a ∧
    a.Knows (.complete [("a",⟨0,1⟩),("a",⟨0,1⟩)]) ∧ (a.session.pipe 1).shared = false ∧
    complete [("a",⟨0,1⟩),("a",⟨0,1⟩)] a.session = .ok () t ∧
    t.exportPads.map (fun p => (t.pipe p).name) = ["a","_2"] := by
  have runs : (run? scaledSource (.new 0 .empty)).any (fun a =>
      decide (a.Knows (.complete [("a",⟨0,1⟩),("a",⟨0,1⟩)])) && !(a.session.pipe 1).shared &&
        succeeds (complete [("a",⟨0,1⟩),("a",⟨0,1⟩)]) a.session fun _ t =>
          t.exportPads.map (fun p => (t.pipe p).name) == ["a","_2"]) = true := by decide +kernel
  obtain ⟨a,ran,facts⟩ := (Option.any_eq_true ..).mp runs
  simp only [Bool.and_eq_true,decide_eq_true_eq,Bool.not_eq_true'] at facts
  obtain ⟨_,t,completed,names⟩ := ok_of_succeeds facts.2
  exact ⟨a,t,ran,facts.1.1,facts.1.2,completed,eq_of_beq names⟩

end Pairs
end MediaGraph.Session
