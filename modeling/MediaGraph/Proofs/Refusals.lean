import MediaGraph.Compile
import MediaGraph.Proofs.Growth
import MediaGraph.Proofs.Pads
import MediaGraph.Proofs.Plans
import MediaGraph.Proofs.Runs

/-! What an extension leaves when it fails.
Its guards come before anything is done. Behind them the operation goes to its place, and
then the inputs have their turns one by one. A turn that fails leaves nothing, but what was
done before it stays. -/
namespace MediaGraph.Session
open Relation

section Turns
variable {s t : Session} {put : List (Nat × Nat)} {took rest : List Nat} {r : Nat} {e : GraphError}

theorem updatePipe_error {i : Nat} {f : Pipe → Except GraphError Pipe} :
    updatePipe i f s = .error e t ↔ f (s.pipe i) = .error e ∧ t = s := by
  simp only [updatePipe,bind_error,get_error,get_ok,false_or,and_assoc,exists_and_left,
    exists_eq_left]
  cases changed : f (s.pipe i) with
  | ok p => simp [modify_error]
  | error other => simp [throw_error,eq_comm]

theorem mark_unknown {p : Pipe} (plain : p.media = .unknown) (media : Media) :
    p.mark media = .ok { p with media := media } := by
  unfold Pipe.mark
  rw [plain]
  by_cases same : media = .unknown
  · rw [if_pos (by simp [same]),same,← plain]
  · rw [if_neg (by simp [same,Ne.symm same]),if_neg (by simp)]

theorem take_error {p : Pipe} (refused : p.take = .error e) : p.shared = false ∧ p.taken = true := by
  unfold Pipe.take at refused
  split at refused
  · cases refused
  next own =>
    split at refused
    next taken => exact ⟨by simpa using own,taken⟩
    next => cases refused

theorem nextBranch_error {i p o x : Nat} (isOpen : s.completed = false)
    (duplicates : s.Duplicates p i o x) (failed : nextBranch i s = .error e t) :
    t = s ∧ outputLimit ≤ (s.stage i).outputs.size ∧ e = .unboundedIteration (s.describe i) := by
  have held : s.operationAt i = some (s.operation o) := by simp [operationAt,duplicates.holds]
  have dynamic : (s.operation o).outputs = .dynamic := by
    rw [duplicates.operation]
    rfl
  have bound : i < s.stages.size := inside_of_holds (by simp [duplicates.holds])
  simp only [nextBranch,bind_error,get_error,get_ok,false_or,and_assoc,exists_and_left,
    exists_eq_left] at failed
  rcases failed with refused | ⟨answer,u,asked,failed⟩
  · obtain ⟨rfl,⟨closed,_⟩ | ⟨linked,_⟩ | limit⟩ := outputAt_error refused
    · simp [isOpen] at closed
    · exact absurd duplicates.alone.2 linked
    · exact ⟨rfl,limit⟩
  rcases outputAt_ok.mp asked with ⟨empty,_⟩ | ⟨op,same,⟨q,there,_⟩ | ⟨_,_,_,⟨lacks,_⟩ | made⟩⟩
  · simp [held] at empty
  · simp at there
  · rw [held] at same
    cases same
    simp [dynamic,Pads.lacks,Pads.count] at lacks
  -- The new pipe is neither coloured nor taken, so nothing is in the way of either.
  obtain ⟨_,_,rfl,rfl⟩ := made
  rw [held] at same
  cases same
  have added : s.addOutputs i (s.operation o)
      ((s.stage i).outputs.size + 1 - (s.stage i).outputs.size) =
        s.addOutput i (s.operation o) := by
    rw [Nat.add_sub_cancel_left]
    rfl
  have answered : ((s.addOutput i (s.operation o)).stage i).outputs[(s.stage i).outputs.size]? =
      some s.pipes.size := by
    simp [stage_addOutput s i (s.operation o) i bound]
  have new := pipe_addOutput s i (s.operation o) s.pipes.size
  rw [if_pos rfl,dynamic] at new
  rw [added] at failed
  simp only [answered,duplicates.holds,bind_error,modify_error,modify_ok,get_error,get_ok,
    updatePipe_error,updatePipe_ok,pure_error,false_or,or_false,and_false,exists_false,and_assoc,
    exists_and_left,exists_eq_left] at failed
  have made : ((putArguments o [.ofNat ((s.stage i).outputs.size + 1)]
      (s.addOutput i (s.operation o))).pipe s.pipes.size) = _ := new
  have size : (putArguments o [.ofNat ((s.stage i).outputs.size + 1)]
      (s.addOutput i (s.operation o))).pipes.size = s.pipes.size + 1 := Array.size_push ..
  obtain ⟨_,⟨marked,_⟩ | ⟨_,_,⟨p,marked,rfl⟩,taken,_⟩⟩ := failed
  · rw [mark_unknown (by rw [made]; rfl)] at marked
    cases marked
  · rw [mark_unknown (by rw [made]; rfl)] at marked
    cases marked
    rw [pipe_modifyPipe,if_pos ⟨rfl,by omega⟩,made] at taken
    cases taken

/-- The pipe of a reader is taken, and there is no split that could give it an output in the
place of the pipe. -/
structure Blocked (s : Session) (r : Nat) (e : GraphError) : Prop where
  own : (s.pipe (s.reader r).pipe).shared = false
  taken : (s.pipe (s.reader r).pipe).taken = true
  why : (s.pipe (s.reader r).pipe).splitter = none ∧
      Helper.split.filter (s.pipe (s.reader r).pipe).media
        (s.pipe (s.reader r).pipe).describe = .error e ∨
    ∃ i, (s.pipe (s.reader r).pipe).splitter = some i ∧
      outputLimit ≤ (s.stage i).outputs.size ∧ e = .unboundedIteration (s.describe i)

theorem insertSplitter_error (sound : Sound s (r :: rest)) {d : Nat} (isOpen : s.completed = false)
    (idle : ∀ x ∈ r :: rest, (s.reader x).resolved = false)
    (own : (s.pipe (s.reader r).pipe).shared = false)
    (first : (s.pipe (s.reader r).pipe).splitter = none)
    (takes : s.Takes (r :: rest) d (s.reader r).pipe)
    (failed : insertSplitter (s.reader r).pipe s = .error e t) :
    t = s ∧ Helper.split.filter (s.pipe (s.reader r).pipe).media
      (s.pipe (s.reader r).pipe).describe = .error e := by
  simp only [insertSplitter,bind_error,get_error,get_ok,false_or,and_assoc,exists_and_left,
    exists_eq_left] at failed
  cases kind : Helper.split.filter (s.pipe (s.reader r).pipe).media
      (s.pipe (s.reader r).pipe).describe with
  | error other =>
    simp only [kind,throw_error] at failed
    obtain ⟨rfl,rfl⟩ := failed
    exact ⟨rfl,rfl⟩
  | ok name =>
    simp only [kind,bind_error,modify_error,modify_ok,get_error,get_ok,pure_error,false_or,
      or_false,and_false,exists_false,and_assoc,exists_and_left,exists_eq_left] at failed
    rw [attach_eq,directReaders_attach sound idle own takes] at failed
    simp only [moveReaders,bind_error,modify_error,pure_error,and_false,exists_false,or_false]
      at failed
    have attached := sound.of_attach own first takes kind
    have behind : ((s.attach (s.reader r).pipe name).pipe (s.reader r).pipe).splitter =
        some s.stages.size := by
      rw [splitter_attach s _ name _ (sound.reading.pipe_inside takes),if_pos rfl]
    obtain ⟨_,_,duplicates⟩ := attached.splitting _ _ behind
    obtain ⟨_,limit,_⟩ := nextBranch_error (s := s.attach (s.reader r).pipe name) isOpen duplicates
      (by simpa using failed)
    rw [stage_attach,if_pos rfl] at limit
    simp [outputLimit] at limit

theorem resolve_error (kept : Ledger.Kept ⟨s,put,took,r :: rest⟩) (isOpen : s.completed = false)
    (idle : ∀ x ∈ r :: rest, (s.reader x).resolved = false)
    (failed : resolve r s = .error e t) : t = s ∧ s.Blocked r e := by
  have sound := kept.1
  have bound : r < s.readers.size := sound.reading.waiting r (by simp)
  simp only [resolve,bind_error,get_error,get_ok,false_or,and_assoc,exists_and_left,
    exists_eq_left,choice_error,modify_error,and_false,exists_false,or_false,Bool.or_eq_true,
    Bool.not_eq_true'] at failed
  rcases failed with ⟨free,refused⟩ | ⟨busy,failed⟩
  · obtain ⟨own,taken⟩ := take_error (updatePipe_error.mp refused).1
    simp [own,taken] at free
  obtain ⟨own,taken⟩ : (s.pipe (s.reader r).pipe).shared = false ∧
      (s.pipe (s.reader r).pipe).taken = true := by
    simpa [not_or] using busy
  simp only [branch,bind_error,get_error,get_ok,false_or,and_assoc,exists_and_left,
    exists_eq_left] at failed
  cases behind : (s.pipe (s.reader r).pipe).splitter with
  | some i =>
    simp only [behind] at failed
    obtain ⟨_,_,duplicates⟩ := sound.splitting _ i behind
    obtain ⟨rfl,limit⟩ := nextBranch_error isOpen duplicates failed
    exact ⟨rfl,own,taken,.inr ⟨i,behind,limit⟩⟩
  | none =>
    simp only [behind,bind_error] at failed
    obtain ⟨d,takes⟩ := (sound.reading.taken _ own).mp taken
    rcases failed with refused | ⟨i,v,inserted,failed⟩
    · obtain ⟨rfl,kind⟩ := insertSplitter_error sound isOpen idle own behind takes refused
      exact ⟨rfl,own,taken,.inl ⟨behind,kind⟩⟩
    · -- A split that was just put there has had one output so far.
      obtain ⟨name,kind,rfl,moved⟩ := insertSplitter_ok sound idle own behind takes inserted
      obtain ⟨turns,_,behindV,_,one⟩ := turns_attach kept idle own behind takes kind moved
      obtain ⟨_,_,duplicates⟩ := (turns.moves.kept kept).1.splitting _ _ behindV
      obtain ⟨_,limit,_⟩ := nextBranch_error (by rw [moved]; exact isOpen) duplicates failed
      simp [one,outputLimit] at limit

theorem resolveAll_error {list : List Nat} (kept : Ledger.Kept ⟨s,put,took,list⟩)
    (isOpen : s.completed = false) (idle : ∀ x ∈ list, (s.reader x).resolved = false)
    (failed : resolveAll list s = .error e t) :
    ∃ before r after, list = before ++ r :: after ∧ resolveAll before s = .ok () t ∧
      Turns ⟨s,put,took,list⟩ ⟨t,put,took ++ before,r :: after⟩ ∧
      (∀ x ∈ r :: after, t.reader x = s.reader x) ∧ t.Blocked r e := by
  induction list generalizing s took with
  | nil => exact (pure_error.mp failed).elim
  | cons r rest ih =>
    rcases bind_error.mp failed with refused | ⟨_,v,resolved,failed⟩
    · obtain ⟨rfl,blocked⟩ := resolve_error kept isOpen idle refused
      exact ⟨[],r,rest,rfl,rfl,by simpa using .refl,fun _ _ => rfl,blocked⟩
    · obtain ⟨turns,same⟩ := resolve_ok kept idle resolved
      have opened := (Moves.completed turns.moves).trans isOpen
      obtain ⟨before,x,after,rfl,done,more,later,blocked⟩ := ih (turns.moves.kept kept) opened
        (fun x member => (congrArg Reader.resolved (same x member)).trans
          (idle x (List.mem_cons_of_mem r member))) failed
      rw [List.append_assoc] at more
      exact ⟨r :: before,x,after,rfl,bind_ok.mpr ⟨_,v,resolved,done⟩,turns.trans more,
        fun y member => (later y member).trans (same y (List.mem_append_right _ member)),blocked⟩

end Turns

section Extensions
variable {s t : Session} {chain : ChainId} {op : Operation} {e : GraphError}

def TurnedAway (s : Session) (chain : ChainId) : Prop :=
  s.completed = true ∨ chain.session ≠ s.serial ∨ s.stages.size ≤ chain.index ∨
    (s.stage chain.index).next ≠ none

theorem not_turnedAway : ¬ s.TurnedAway chain ↔ s.completed = false ∧ chain.session = s.serial ∧
    chain.index < s.stages.size ∧ (s.stage chain.index).next = none := by
  simp [TurnedAway]

/-- Stage `i` holds `op`, and its inputs have had their turns up to reader `r`. Those from
`r` on are as they were, and nothing else was done. -/
structure StopsAt (s t : Session) (i : Nat) (op : Operation) (e : GraphError)
    (before : List Nat) (r : Nat) (after : List Nat) : Prop where
  inputs : (s.stage i).inputs = before ++ r :: after
  turns : resolveAll before (s.hold i op) = .ok () t
  had : ∀ x ∈ before, (t.reader x).resolved = true
  waiting : ∀ x ∈ r :: after, t.reader x = s.reader x ∧ (t.reader x).resolved = false
  blocked : t.Blocked r e
  stage : t.stage i = { s.stage i with operation := some s.operations.size }
  operation : t.operation s.operations.size = op

theorem extend_error (vacant : (s.stage chain.index).operation = none)
    (refused : extend chain op s = .error e t) :
    s.TurnedAway chain ∧ t = s ∨ ¬ s.TurnedAway chain ∧
      resolveAll (s.stage chain.index).inputs (s.hold chain.index op) = .error e t := by
  simp only [extend,requireOpen,stageIndex,requireTail,bind_error,bind_ok,get_error,get_ok,
    choice_error,choice_ok,throw_error,throw_ok,pure_error,pure_ok,modify_error,modify_ok,
    false_or,or_false,and_false,false_and,exists_false,and_assoc,exists_and_left,exists_eq_left,
    exists_const,vacant,Option.isNone_none,not_true,Option.isSome_iff_ne_none,Bool.and_eq_true,
    decide_eq_true_eq,not_and_or,Nat.not_lt,Classical.not_not] at refused
  rcases refused with
    ⟨closed,_,rfl⟩ | ⟨isOpen,_,⟨foreign,_,rfl⟩ | ⟨own,inside,⟨linked,_,rfl⟩ | ⟨tail,_,_,failed⟩⟩⟩
  · exact .inl ⟨.inl closed,rfl⟩
  · exact .inl ⟨.inr (foreign.imp_right .inl),rfl⟩
  · exact .inl ⟨.inr (.inr (.inr linked)),rfl⟩
  · exact .inr ⟨not_turnedAway.mpr ⟨by simpa using isOpen,own,inside,tail⟩,failed⟩

theorem Growth.holds (growth : Growth s t) {i o : Nat} (holds : (s.stage i).operation = some o) :
    (t.stage i).operation = some o := by
  have inside := inside_of_holds (s := s) (i := i) (by simp [holds])
  have old := Nat.ne_of_lt inside
  cases growth with
  | paint frozen => rwa [stage,frozen.rest]
  | tables _ kept => rwa [stage,kept.stages]
  | place pipes => rwa [stage_addChain,if_neg old]
  | hold j op _ _ vacant =>
    have other : i ≠ j := by
      rintro rfl
      simp [vacant] at holds
    rwa [stage_hold,if_neg fun both => other both.1]
  | append j op _ held =>
    rw [stage_append s j op i (inside_of_holds held),if_neg old]
    split <;> exact holds
  | connect j pipes =>
    rw [stage,modifyStage,getD_modify]
    split <;> exact holds
  | output j op _ held =>
    rw [stage_addOutput s j op i (holds_inside held)]
    split <;> exact holds
  | attach p name => rwa [stage_attach,if_neg old]

theorem holds_of_growth (grown : ReflTransGen Growth s t) {i o : Nat}
    (holds : (s.stage i).operation = some o) : (t.stage i).operation = some o := by
  induction grown with
  | refl => exact holds
  | tail _ growth ih => exact growth.holds ih

theorem stopsAt_of_error {put : List (Nat × Nat)} {took : List Nat}
    (kept : Ledger.Kept ⟨s,put,took,[]⟩) (vacant : (s.stage chain.index).operation = none)
    (away : ¬ s.TurnedAway chain)
    (failed : resolveAll (s.stage chain.index).inputs (s.hold chain.index op) = .error e t) :
    ∃ before r after, StopsAt s t chain.index op e before r after ∧
      ∀ u again, Frozen t u →
        extend chain again u = .ok ⟨u.serial,u.stages.size⟩ (u.append chain.index again) := by
  obtain ⟨isOpen,own,inside,tail⟩ := not_turnedAway.mp away
  have held := Move.hold s put took chain.index op inside vacant
  have keptHeld := held.kept kept
  have other : ¬ (s.hold chain.index op).Made chain.index := by
    rw [made_congr fun _ => rfl]
    exact fun made => kept.1.splitting.made_holds made vacant
  have stage := stage_hold s chain.index op chain.index
  rw [if_pos ⟨rfl,inside⟩] at stage
  obtain ⟨before,r,after,inputs,done,turns,waiting,blocked⟩ := resolveAll_error keptHeld isOpen
    (fun x member => kept.1.reading.idle_of_vacant vacant member) failed
  have keptT := turns.moves.kept keptHeld
  have steady := Turns.steady turns keptHeld
  have later := Moves.later turns.moves keptHeld
  have outer : (s.hold chain.index op).OuterStage chain.index :=
    ⟨by simpa [hold] using inside,other⟩
  have stageT := (steady.stage chain.index outer).trans stage
  have operationT := steady.operation s.operations.size
    (outer_of_holds keptHeld.1 other (by rw [stage]))
  refine ⟨before,r,after,⟨inputs,done,fun x member => ?_,fun x member => ?_,blocked,stageT,?_⟩,?_⟩
  · exact ((keptT.2.turns x).mp (List.mem_append_right took member)).1
  · refine ⟨waiting x member,(congrArg Reader.resolved (waiting x member)).trans ?_⟩
    exact kept.1.reading.idle_of_vacant vacant (by simp [inputs,member])
  · rw [operationT,operation_hold,if_pos rfl]
  · intro u again frozen
    have stages : u.stage chain.index = t.stage chain.index := by rw [Session.stage,frozen.rest]; rfl
    have bare : (s.stage chain.index).outputs = #[] := by
      refine Array.eq_empty_iff_forall_not_mem.mpr fun p member => ?_
      exact kept.1.feeding.working chain.index p member vacant
    refine extend_ok.mpr ⟨?_,?_,?_,?_,.inr ⟨?_,?_,rfl,rfl⟩⟩
    · rw [frozen.rest]
      exact (Moves.completed turns.moves).trans isOpen
    · rw [frozen.rest]
      exact own.trans later.serial.symm
    · rw [frozen.rest]
      exact (later.stage _ outer).1
    · rw [stages,stageT]
      exact tail
    · simp [stages,stageT]
    · rw [stages,stageT]
      exact bare

/-- A source on a pipe of unknown media, which one chain reads and another one waits for. -/
def rawSource : List ((reply : Reply) × Call reply) :=
  [⟨_,.namedPipe "raw"⟩,⟨_,.start []⟩,⟨_,.extend ⟨0,0⟩ (.named "testsrc")⟩,
    ⟨_,.connect ⟨0,0⟩ [⟨0,0⟩]⟩,⟨_,.start [⟨0,0⟩]⟩,⟨_,.extend ⟨0,1⟩ (.named "hflip")⟩,
    ⟨_,.start [⟨0,0⟩]⟩]

def flipRaw : Build String := do
  setMedia ⟨0,0⟩ .video
  let last ← extend ⟨0,2⟩ (.named "vflip")
  let x ← output ⟨0,1⟩ 0
  let y ← output last 0
  finish [("x",x),("y",y)]

open Account in
/-- An extension of a placeholder is turned away before it does anything, or it leaves the
operation where it was put and what was done for the inputs before the one that is blocked. -/
theorem extend_stops (vacant : (s.stage chain.index).operation = none)
    (refused : extend chain op s = .error e t) :
    s.TurnedAway chain ∧ t = s ∨
      ¬ s.TurnedAway chain ∧ (t.stage chain.index).operation = some s.operations.size ∧
        ∀ catalog a, Reached catalog a → a.session = s →
          ∃ before r after, StopsAt s t chain.index op e before r after ∧
            ∀ u again, Frozen t u →
              extend chain again u = .ok ⟨u.serial,u.stages.size⟩ (u.append chain.index again) := by
  rcases extend_error vacant refused with same | ⟨away,failed⟩
  · exact .inl same
  obtain ⟨isOpen,_,inside,_⟩ := not_turnedAway.mp away
  refine .inr ⟨away,?_,?_⟩
  · have does : Does Growth (resolveAll (s.stage chain.index).inputs) (s.hold chain.index op) :=
      resolveAll_does isOpen
    rw [Does,leaves_error failed] at does
    refine holds_of_growth does ?_
    rw [stage_hold,if_pos ⟨rfl,inside⟩]
  · rintro catalog a reached rfl
    exact stopsAt_of_error reached.consistent.kept vacant away failed

open Account in
theorem extend_stops_raw : ∃ a e t before r after, run? rawSource (.new 0 .empty) = some a ∧
    extend ⟨0,2⟩ (.named "vflip") a.session = .error e t ∧
    StopsAt a.session t 2 (.named "vflip") e before r after ∧ ∀ u again, Frozen t u →
      extend ⟨0,2⟩ again u = .ok ⟨u.serial,u.stages.size⟩ (u.append 2 again) := by
  have runs : (run? rawSource (.new 0 .empty)).any (fun a =>
      (a.session.stage 2).operation.isNone && fails (extend ⟨0,2⟩ (.named "vflip")) a.session
        fun _ t => (t.stage 2).operation.isSome) = true := by decide +kernel
  obtain ⟨a,ran,facts⟩ := (Option.any_eq_true ..).mp runs
  simp only [Bool.and_eq_true,Option.isNone_iff_eq_none] at facts
  obtain ⟨e,t,refused,holds⟩ := error_of_fails facts.2
  rcases extend_stops facts.1 refused with ⟨_,rfl⟩ | ⟨_,_,stops⟩
  · simp [facts.1] at holds
  · obtain ⟨before,r,after,stops,again⟩ := stops _ a ((Reached.new 0).run ran) rfl
    exact ⟨a,e,t,before,r,after,ran,refused,stops,again⟩

open Account in
/-- An extension that was refused for the media of a pipe is not taken back: when they are
settled, the chain gets its operation twice, and two operations read the pipe. -/
theorem extend_not_undone : ∃ a e t, run? rawSource (.new 0 .empty) = some a ∧
    (a.session.stage 2).operation = none ∧
    extend ⟨0,2⟩ (.named "vflip") a.session = .error e t ∧ (t.stage 2).operation ≠ none ∧
    (∃ u, flipRaw a.session =
      .ok "testsrc[raw];[_0]hflip[x];[_1]vflip[y];[raw]split='2'[_0][_1]" u) ∧
    ∃ u, flipRaw t = .ok "testsrc[raw];[raw]hflip[x];[raw]vflip,vflip[y]" u ∧
      (u.pipe 0).shared = false ∧ u.inputPads.count 0 = 2 := by
  have runs : (run? rawSource (.new 0 .empty)).any (fun a =>
      (a.session.stage 2).operation.isNone && fails (extend ⟨0,2⟩ (.named "vflip")) a.session
        fun _ t => (t.stage 2).operation.isSome &&
          succeeds flipRaw a.session (fun text _ =>
            text == "testsrc[raw];[_0]hflip[x];[_1]vflip[y];[raw]split='2'[_0][_1]") &&
          succeeds flipRaw t fun text u => text == "testsrc[raw];[raw]hflip[x];[raw]vflip,vflip[y]" &&
            !(u.pipe 0).shared && u.inputPads.count 0 == 2) = true := by decide +kernel
  obtain ⟨a,ran,facts⟩ := (Option.any_eq_true ..).mp runs
  simp only [Bool.and_eq_true,Option.isNone_iff_eq_none] at facts
  obtain ⟨e,t,refused,facts'⟩ := error_of_fails facts.2
  simp only [Bool.and_eq_true] at facts'
  obtain ⟨first,u,direct,same⟩ := ok_of_succeeds facts'.1.2
  obtain ⟨second,v,again,facts''⟩ := ok_of_succeeds facts'.2
  simp only [Bool.and_eq_true,beq_iff_eq,Bool.not_eq_true'] at same facts''
  obtain ⟨⟨rfl,own⟩,twice⟩ := facts''
  subst same
  exact ⟨a,e,t,ran,facts.1,refused,Option.isSome_iff_ne_none.mp facts'.1.1,⟨u,direct⟩,v,again,own,
    twice⟩

end Extensions
end MediaGraph.Session
