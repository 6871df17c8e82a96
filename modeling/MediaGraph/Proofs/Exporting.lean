import MediaGraph.Proofs.Labelling
import MediaGraph.Proofs.Placing

/-! What completing a graph does for each export. -/
namespace MediaGraph.Session

/-- The stages and operations that callers know are the same, and nothing is gone. -/
structure Steady (s t : Session) : Prop where
  stage : ∀ i, s.OuterStage i → t.stage i = s.stage i
  operation : ∀ o, s.OuterOperation o → t.operation o = s.operation o
  pipes : s.pipes.size ≤ t.pipes.size
  stages : s.stages.size ≤ t.stages.size

theorem Steady.refl (s : Session) : Steady s s :=
  ⟨fun _ _ => rfl,fun _ _ => rfl,Nat.le_refl _,Nat.le_refl _⟩

theorem Steady.trans {s t u : Session} (first : Steady s t) (later : Later s t)
    (second : Steady t u) : Steady s u where
  stage i outer := (second.stage i (later.stage i outer)).trans (first.stage i outer)
  operation o outer := (second.operation o (later.operation o outer)).trans (first.operation o outer)
  pipes := Nat.le_trans first.pipes second.pipes
  stages := Nat.le_trans first.stages second.stages

theorem Steady.of_pipes {s t : Session} (stages : t.stages = s.stages)
    (operations : t.operations = s.operations) (size : s.pipes.size ≤ t.pipes.size) :
    Steady s t where
  stage i _ := by rw [Session.stage,Session.stage,stages]
  operation o _ := by rw [Session.operation,Session.operation,operations]
  pipes := size
  stages := Nat.le_of_eq (by rw [stages])

theorem Turn.steady {l m : Ledger} (turn : Turn l m) (sound : Sound l.session l.pending) :
    Steady l.session m.session := by
  cases turn with
  | take => exact .of_pipes rfl rfl (Nat.le_of_eq Array.size_modify.symm)
  | attach s _ _ r _ _ name =>
    refine ⟨fun i outer => ?_,fun o outer => ?_,Nat.le_of_eq Array.size_modify.symm,
      by simp [Session.attach]⟩
    · rw [stage_attach,if_neg (Nat.ne_of_lt outer.1)]
    · rw [operation_attach,if_neg (Nat.ne_of_lt outer.1)]
  | move s _ _ r _ i o behind holds =>
    have made : s.Made i := ⟨_,behind⟩
    refine ⟨fun j outer => ?_,fun k outer => ?_,by simp [moveTo],by simp [moveTo]⟩
    · have other : j ≠ i := fun same => outer.2 (same ▸ made)
      rw [stage_moveTo s i o r j (sound.splitting.made_inside made),if_neg other]
    · have other : k ≠ o := fun same => outer.2 i made (same ▸ holds)
      rw [operation_moveTo s i o r k (sound.holding.inside i o holds),if_neg other]

theorem Turns.steady {l m : Ledger} (turns : Turns l m) (kept : l.Kept) :
    Steady l.session m.session := by
  induction turns with
  | refl => exact .refl _
  | tail turns turn ih =>
    have moves := Turns.moves turns
    exact ih.trans (moves.later kept) (turn.steady (moves.kept kept).1)

/-- Stage `i` holds operation `o`, which reads with `r` alone and feeds `outputs`. -/
structure Through (s : Session) (i o r : Nat) (name : String) (outputs : Array Nat) : Prop where
  stage : s.OuterStage i
  operation : s.OuterOperation o
  pads : s.stage i = ⟨some o,[r],outputs,none,none⟩
  held : s.operation o = .named name

theorem Through.later {s t : Session} {i o r : Nat} {name : String} {outputs : Array Nat}
    (through : s.Through i o r name outputs) (steady : Steady s t) (later : Later s t) :
    t.Through i o r name outputs where
  stage := later.stage i through.stage
  operation := later.operation o through.operation
  pads := (steady.stage i through.stage).trans through.pads
  held := (steady.operation o through.operation).trans through.held

def Passes (s t : Session) (r out : Nat) : Prop :=
  ∃ i o name, s.stages.size ≤ i ∧ (name = "null" ∨ name = "anull") ∧ t.Through i o r name #[out]

section Passing
variable {s t : Session} {put : List (Nat × Nat)} {took : List Nat} {u : Unit}

theorem begin_plains {p : Nat} (kept : Ledger.Kept ⟨s,put,took,[]⟩) (outer : s.OuterPipe p)
    (name : String) :
    let v := (s.addChain [p]).hold s.stages.size (.named name)
    Plains ⟨s,put,took,[]⟩ ⟨v,put ++ [(s.readers.size,p)],took,[s.readers.size]⟩ ∧ Steady s v ∧
      v.Through s.stages.size s.operations.size s.readers.size name #[] ∧
      (v.reader s.readers.size).resolved = false := by
  intro v
  have placed : Plain ⟨s,put,took,[]⟩ ⟨s.addChain [p],put ++ [(s.readers.size,p)],took,[]⟩ :=
    .place s put took [p] (by simpa using outer.1) (by simpa using outer.2)
  have operations : (s.addChain [p]).operations = s.operations := by rw [addChain_eq]
  have stages : (s.addChain [p]).stages.size = s.stages.size + 1 := by simp [addChain_eq]
  have stage := stage_addChain_one s p
  have held := Plain.hold (s.addChain [p]) (put ++ [(s.readers.size,p)]) took s.stages.size
    (.named name) (by omega) (by rw [stage])
  rw [stage] at held
  have plains : Plains ⟨s,put,took,[]⟩
      ⟨v,put ++ [(s.readers.size,p)],took,[s.readers.size]⟩ := .tail (.single placed) held
  have keptV := Plains.kept plains kept
  have pads : v.stage s.stages.size =
      ⟨some s.operations.size,[s.readers.size],#[],none,none⟩ := stage_begun s p (.named name)
  have other : ¬ v.Made s.stages.size := by
    rw [made_congr (held.move.untouched (placed.move.kept kept).1 rfl).splitters,
      made_congr (placed.move.untouched kept.1 rfl).splitters]
    exact fun made => Nat.lt_irrefl _ (kept.1.splitting.made_inside made)
  refine ⟨plains,⟨fun i known => ?_,fun o known => ?_,?_,?_⟩,⟨⟨?_,other⟩,?_,pads,?_⟩,?_⟩
  · have old := Nat.ne_of_lt known.1
    rw [stage_hold,if_neg fun both => old both.1,stage_addChain,if_neg old]
  · rw [operation_hold,operations,if_neg (Nat.ne_of_lt known.1)]
    simp [operation,operations]
  · exact Nat.le_of_eq (pipes_size_addChain s [p]).symm
  · simp [v,Session.hold,stages]
  · simp [v,Session.hold,stages]
  · exact outer_of_holds keptV.1 other (by rw [pads])
  · rw [operation_hold,operations,if_pos rfl]
  · have new := reader_addChain_new s [p] 0 (by simp)
    exact congrArg Reader.resolved new

theorem firstOutput_ok {i o r : Nat} {name : String} {id : PipeId}
    (through : s.Through i o r name #[]) (called : output ⟨s.serial,i⟩ 0 s = .ok id t) :
    t = s.addOutput i (.named name) ∧ id.index = s.pipes.size := by
  have holds : s.operationAt i = some (.named name) := by
    rw [operationAt,through.pads]
    exact congrArg some through.held
  obtain ⟨_,_,q,found,rfl⟩ := output_ok.mp called
  rcases outputAt_ok.mp found with ⟨none,_⟩ | ⟨op,same,rest⟩
  · rw [holds] at none
    cases none
  rw [holds] at same
  cases same
  rcases rest with ⟨_,there,_⟩ | ⟨_,_,_,⟨lacks,_⟩ | ⟨_,_,made,answer⟩⟩
  · rw [through.pads] at there
    cases there
  · cases lacks
  · rw [through.pads] at made
    change t = s.addOutput i (.named name) at made
    subst made
    rw [stage_addOutput s _ _ _ through.stage.1,if_pos rfl,through.pads] at answer
    exact ⟨rfl,by simpa using answer⟩

theorem extend_begun {p : Nat} {name : String} {next : ChainId} (kept : Ledger.Kept ⟨s,put,took,[]⟩)
    (outer : s.OuterPipe p)
    (extended : extend ⟨s.serial,s.stages.size⟩ (.named name) (s.addChain [p]) = .ok next t) :
    next = ⟨t.serial,s.stages.size⟩ ∧
      Turns ⟨(s.addChain [p]).hold s.stages.size (.named name),put ++ [(s.readers.size,p)],took,
          [s.readers.size]⟩
        ⟨t,put ++ [(s.readers.size,p)],took ++ [s.readers.size],[]⟩ ∧
      t.Through s.stages.size s.operations.size s.readers.size name #[] := by
  let v := (s.addChain [p]).hold s.stages.size (.named name)
  obtain ⟨begun,_,throughV,idle⟩ := begin_plains kept outer name
  have keptV : Ledger.Kept ⟨v,put ++ [(s.readers.size,p)],took,[s.readers.size]⟩ :=
    Plains.kept begun kept
  have vacant := stage_addChain_one s p
  obtain ⟨_,_,_,_,⟨_,rfl,resolved⟩ | ⟨full,_⟩⟩ := extend_ok.mp extended
  case inr => exact absurd (congrArg Stage.operation vacant) full
  change resolveAll ((s.addChain [p]).stage s.stages.size).inputs v = _ at resolved
  rw [vacant] at resolved
  have turns := resolveAll_ok keptV (by simpa using idle) resolved
  have serial := (Plains.later (begun.trans (Turns.plains turns)) kept).serial
  exact ⟨by rw [serial],turns,
    throughV.later (Turns.steady turns keptV) (Moves.later (Turns.moves turns) keptV)⟩

theorem passThrough_opened {p out : Nat} (kept : Ledger.Kept ⟨s,put,took,[]⟩)
    (outer : s.OuterPipe p) (called : passThrough p s = .ok out t) :
    ∃ name w x media, Helper.passThrough.filter (s.pipe p).media (s.pipe p).describe = .ok name ∧
      Turns ⟨(s.addChain [p]).hold s.stages.size (.named name),put ++ [(s.readers.size,p)],took,
          [s.readers.size]⟩
        ⟨w,put ++ [(s.readers.size,p)],took ++ [s.readers.size],[]⟩ ∧
      out = w.pipes.size ∧ x = w.addOutput s.stages.size (.named name) ∧
      ((x.pipe out).media ≠ .unknown → media = (x.pipe out).media) ∧
      t = x.paint out media (x.pipe out).hint := by
  simp only [passThrough,bind_ok,get_ok,pipeId_ok,start_ok,and_assoc,exists_and_left,
    exists_eq_left] at called
  obtain ⟨name,v,named,_,_,next,w,extended,id,x,asked,_,y,marked,done⟩ := called
  obtain ⟨kind,same⟩ := helper_ok named
  subst v
  obtain ⟨rfl,rfl⟩ := pure_ok.mp done
  obtain ⟨rfl,turns,through⟩ := extend_begun kept outer extended
  obtain ⟨made,number⟩ := firstOutput_ok through asked
  obtain ⟨media,known,rfl⟩ := markPipe_ok marked
  exact ⟨name,w,x,media,kind,turns,number,made,known,rfl⟩

theorem passThrough_ok {p out : Nat} (kept : Ledger.Kept ⟨s,put,took,[]⟩) (outer : s.OuterPipe p)
    (called : passThrough p s = .ok out t) :
    Plains ⟨s,put,took,[]⟩ ⟨t,put ++ [(s.readers.size,p)],took ++ [s.readers.size],[]⟩ ∧
      Steady s t ∧ s.pipes.size ≤ out ∧ t.OuterPipe out ∧ Passes s t s.readers.size out := by
  obtain ⟨name,w,_,media,kind,turns,number,rfl,known,rfl⟩ := passThrough_opened kept outer called
  have kinds : name = "null" ∨ name = "anull" := by
    unfold Helper.filter at kind
    split at kind <;> simp_all
  let v := (s.addChain [p]).hold s.stages.size (.named name)
  obtain ⟨begun,steadyV,throughV,_⟩ := begin_plains kept outer name
  have keptV : Ledger.Kept ⟨v,put ++ [(s.readers.size,p)],took,[s.readers.size]⟩ :=
    Plains.kept begun kept
  have toW := begun.trans (Turns.plains turns)
  have keptW := Plains.kept toW kept
  have laterTurns := Moves.later (Turns.moves turns) keptV
  have steadyW : Steady s w := steadyV.trans (Plains.later begun kept) (Turns.steady turns keptV)
  have throughW := throughV.later (Turns.steady turns keptV) laterTurns
  let x := w.addOutput s.stages.size (.named name)
  have holds : w.operationAt s.stages.size = some (.named name) := by
    rw [operationAt,throughW.pads]
    exact congrArg some throughW.held
  have fed := Plain.output w (put ++ [(s.readers.size,p)]) (took ++ [s.readers.size]) s.stages.size
    (.named name) holds throughW.stage.2 rfl
  have painted := Plain.paint x (put ++ [(s.readers.size,p)]) (took ++ [s.readers.size]) out
    media (x.pipe out).hint known
  have ends : Plains ⟨w,put ++ [(s.readers.size,p)],took ++ [s.readers.size],[]⟩
      ⟨x.paint out media (x.pipe out).hint,put ++ [(s.readers.size,p)],
        took ++ [s.readers.size],[]⟩ := .tail (.single fed) painted
  have laterEnd := Plains.later ends keptW
  have stages (i : Nat) := stage_addOutput w s.stages.size (.named name) i throughW.stage.1
  have grown : w.pipes.size ≤ x.pipes.size := by simp [x,addOutput,addAnonymous,modifyStage]
  have size : (x.paint out media (x.pipe out).hint).pipes.size = x.pipes.size :=
    Array.size_modify
  have pads : (x.paint out media (x.pipe out).hint).stage s.stages.size =
      ⟨some s.operations.size,[s.readers.size],#[out],none,none⟩ := by
    refine (stages _).trans ?_
    rw [if_pos rfl,throughW.pads,number]
    rfl
  refine ⟨toW.trans ends,⟨fun i outer => ?_,steadyW.operation,?_,?_⟩,?_,?_,?_⟩
  · refine (stages i).trans ?_
    rw [if_neg (Nat.ne_of_lt outer.1),steadyW.stage i outer]
  · exact Nat.le_trans steadyW.pipes (Nat.le_trans grown (Nat.le_of_eq size.symm))
  · exact Nat.le_trans steadyW.stages (Nat.le_of_eq Array.size_modify.symm)
  · rw [number]
    exact steadyW.pipes
  · refine outer_of_output (Plains.kept ends keptW).1 (laterEnd.stage _ throughW.stage).2 ?_
    rw [pads]
    simp
  · refine ⟨_,_,name,Nat.le_refl _,kinds,laterEnd.stage _ throughW.stage,
      laterEnd.operation _ throughW.operation,pads,throughW.held⟩

/-- The pipe that goes by the name of an export, and how it comes by it. -/
theorem exportTarget_ok {name : String} {p target : Nat} (kept : Ledger.Kept ⟨s,put,took,[]⟩)
    (outer : s.OuterPipe p) (called : exportTarget name p s = .ok target t) :
    ∃ more, more = (if target = p then [] else [(s.readers.size,p)]) ∧
      Moves ⟨s,put,took,[]⟩ ⟨t,put ++ more,took ++ more.map (·.1),[]⟩ ∧ Steady s t ∧
      t.OuterPipe target ∧ (t.pipe target).name = name ∧
      ((t.pipe target).fixed = false → Generated name) ∧
      (target = p ∧ ((s.pipe p).fixed = true → (s.pipe p).name = name) ∨
        s.pipes.size ≤ target ∧ Passes s t s.readers.size target) := by
  simp only [exportTarget,bind_ok,get_ok,choice_ok,pure_ok,and_assoc,exists_and_left,
    exists_eq_left] at called
  rcases called with ⟨same,rfl,rfl⟩ | ⟨_,⟨_,out,v,passed,_,w,renamed,rfl,rfl⟩ | ⟨_,_,v,renamed,rfl,rfl⟩⟩
  · refine ⟨[],by simp,by simpa using .refl,.refl _,outer,same,fun free => ?_,.inl ⟨rfl,fun _ => same⟩⟩
    rw [← same]
    exact kept.1.naming.generated target outer.1 free
  · obtain ⟨plains,steady,new,known,passes⟩ := passThrough_ok kept outer passed
    have moves := Plains.moves plains
    obtain ⟨free,rfl⟩ := renamePipe_ok renamed
    have move := Move.retitle v (put ++ [(s.readers.size,p)]) (took ++ [s.readers.size]) target name
      known.1 free
    have later := move.later (Moves.kept moves kept).1
    have quiet : Steady v (v.retitle target name) :=
      .of_pipes rfl rfl (Nat.le_of_eq Array.size_modify.symm)
    have titled : (v.retitle target name).pipe target = _ := pipe_modifyPipe ..
    rw [if_pos ⟨rfl,known.1⟩] at titled
    have other : target ≠ p := Nat.ne_of_gt (Nat.lt_of_lt_of_le outer.1 new)
    refine ⟨_,rfl,?_,steady.trans (Moves.later moves kept) quiet,later.pipe _ known,?_,?_,.inr ⟨new,?_⟩⟩
    · rw [if_neg other]
      exact .tail moves move
    · rw [titled]
    · simp [titled]
    · obtain ⟨i,o,kind,fresh,kinds,through⟩ := passes
      exact ⟨i,o,kind,fresh,kinds,through.later quiet later⟩
  · obtain ⟨free,rfl⟩ := renamePipe_ok renamed
    have move := Move.retitle s put took target name outer.1 free
    have titled : (s.retitle target name).pipe target = _ := pipe_modifyPipe ..
    rw [if_pos ⟨rfl,outer.1⟩] at titled
    refine ⟨[],by simp,by simpa using .single move,?_,(move.later kept.1).pipe _ outer,?_,?_,
      .inl ⟨rfl,fun fixed => by simp [fixed] at free⟩⟩
    · exact .of_pipes rfl rfl (Nat.le_of_eq Array.size_modify.symm)
    · rw [titled]
    · simp [titled]

theorem exportPipe_opened {name : String} {id : PipeId} (kept : Ledger.Kept ⟨s,put,took,[]⟩)
    (outer : s.OuterPipe id.index) (called : exportPipe name id s = .ok u t) :
    ∃ target v more, exportTarget name id.index s = .ok target v ∧
      more = (if target = id.index then [] else [(s.readers.size,id.index)]) ∧
      exportReaders name id.index s = more ++ [(v.readers.size,target)] ∧
      Moves ⟨s,put,took,[]⟩ ⟨v,put ++ more,took ++ more.map (·.1),[]⟩ ∧ Steady s v ∧
      v.OuterPipe target ∧ (v.pipe target).name = name ∧
      ((v.pipe target).fixed = false → Generated name) ∧
      (target = id.index ∧ ((s.pipe id.index).fixed = true → (s.pipe id.index).name = name) ∨
        s.pipes.size ≤ target ∧ Passes s v s.readers.size target) ∧
      resolve v.readers.size (v.addReader target .exported) = .ok u t := by
  simp only [exportPipe,bind_ok,pipeIndex_ok,get_ok,modify_ok,and_assoc,exists_and_left,
    exists_eq_left,exists_const] at called
  obtain ⟨_,_,target,v,aimed,resolved⟩ := called
  obtain ⟨more,shape,moves,steady,known,title,fixed,place⟩ := exportTarget_ok kept outer aimed
  refine ⟨target,v,more,aimed,shape,?_,moves,steady,known,title,fixed,place,resolved⟩
  rw [exportReaders,aimed,shape]

theorem exportPipe_ok {name : String} {id : PipeId} (kept : Ledger.Kept ⟨s,put,took,[]⟩)
    (outer : s.OuterPipe id.index) (called : exportPipe name id s = .ok u t) :
    Closings ⟨s,put,took,[]⟩
        ⟨t,put ++ exportReaders name id.index s,took ++ (exportReaders name id.index s).map (·.1),[]⟩ ∧
      Steady s t ∧
      ∃ e target more, exportReaders name id.index s = more ++ [(e,target)] ∧
        (more = [] ∧ target = id.index ∨ ∃ r, more = [(r,id.index)] ∧ s.pipes.size ≤ target ∧
          Passes s t r target) ∧
        ∀ names, Labelled s names → ¬ Generated name → (∀ r, (r,name) ∉ names) →
          Labelled t (names ++ [(e,name)]) := by
  obtain ⟨target,v,more,_,shape,readers,moves,steadyV,known,title,fixed,place,resolved⟩ :=
    exportPipe_opened kept outer called
  have keptV := Moves.kept moves kept
  let w := v.addReader target .exported
  have left := Closing.leave v (put ++ more) (took ++ more.map (·.1)) target known.1 known.2
  have keptW := left.kept keptV
  have steadyW : Steady v w := by
    have record : w = _ := addReader_eq target .exported v
    exact .of_pipes (by rw [record]) (by rw [record]) (by simp [record])
  have idle (x : Nat) (member : x ∈ [v.readers.size]) : (w.reader x).resolved = false := by
    rw [List.mem_singleton.mp member,reader_addReader,if_pos rfl]
  obtain ⟨turns,_⟩ := resolve_ok keptW idle resolved
  have laterV := Moves.later moves kept
  have laterW := left.later keptV.1
  have laterT := Moves.later (Turns.moves turns) keptW
  have steadyT := Turns.steady turns keptW
  have steady := steadyW.trans laterW steadyT
  refine ⟨?_,steadyV.trans laterV steady,v.readers.size,target,more,readers,?_,?_⟩
  · rw [readers,List.map_append,← List.append_assoc,← List.append_assoc]
    exact (Moves.closings moves).trans (.head left (Moves.closings (Turns.moves turns)))
  · rcases place with ⟨same,_⟩ | ⟨new,i,o,kind,fresh,kinds,through⟩
    · exact .inl ⟨by rw [shape,if_pos same],same⟩
    · have other : target ≠ id.index := Nat.ne_of_gt (Nat.lt_of_lt_of_le outer.1 new)
      refine .inr ⟨_,by rw [shape,if_neg other],new,i,o,kind,fresh,kinds,?_⟩
      exact through.later steady (laterW.trans laterT)
  · intro names labelled chosen free
    have labelledV := Moves.labelled moves kept labelled
    have settled : (v.pipe target).fixed = true := by
      cases now : (v.pipe target).fixed with
      | true => rfl
      | false => exact absurd (fixed now) chosen
    exact Moves.labelled (Turns.moves turns) keptW (labelledV.of_leave ⟨title,settled⟩ free)

theorem exportAll_closings {exports : List (String × PipeId)}
    (kept : Ledger.Kept ⟨s,put,took,[]⟩) (outer : ∀ entry ∈ exports, s.OuterPipe entry.2.index)
    (called : exportAll exports s = .ok u t) :
    Closings ⟨s,put,took,[]⟩
      ⟨t,put ++ exportsReaders exports s,took ++ (exportsReaders exports s).map (·.1),[]⟩ := by
  induction exports generalizing s put took with
  | nil =>
    obtain ⟨_,rfl⟩ := pure_ok.mp called
    simpa [exportsReaders] using .refl
  | cons entry rest ih =>
    obtain ⟨name,id⟩ := entry
    obtain ⟨_,v,exported,called⟩ := bind_ok.mp called
    obtain ⟨first,_⟩ := exportPipe_ok kept (outer (name,id) (by simp)) exported
    have later := Closings.later first kept
    have more := ih (Closings.kept first kept)
      (fun other member => later.pipe _ (outer other (by simp [member]))) called
    rw [exportsReaders,exported,List.map_append,← List.append_assoc,← List.append_assoc]
    exact first.trans more

end Passing

end MediaGraph.Session
