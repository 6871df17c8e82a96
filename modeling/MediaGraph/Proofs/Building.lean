import MediaGraph.Proofs.FanOut
import MediaGraph.Proofs.Plains

/-! The calls that build a graph, as moves. -/
namespace MediaGraph.Session

/-- Handles of the session for what callers may know. -/
def OuterPipeId (s : Session) (id : PipeId) : Prop := id.session = s.serial ∧ s.OuterPipe id.index

def OuterChainId (s : Session) (id : ChainId) : Prop :=
  id.session = s.serial ∧ s.OuterStage id.index

def OuterOperationId (s : Session) (id : OperationId) : Prop :=
  id.session = s.serial ∧ s.OuterOperation id.index

section Pipes
variable {s t : Session} {put : List (Nat × Nat)} {took : List Nat} {u : Unit}

theorem newPipe_plains {id : PipeId} (kept : Ledger.Kept ⟨s,put,took,[]⟩)
    (called : newPipe s = .ok id t) :
    Plains ⟨s,put,took,[]⟩ ⟨t,put,took,[]⟩ ∧ t.OuterPipeId id := by
  simp only [newPipe,bind_ok,requireOpen_ok,get_ok,modify_ok,pipeId_ok,and_assoc,exists_and_left,
    exists_eq_left,exists_const] at called
  obtain ⟨_,rfl,rfl⟩ := called
  have move := Plain.anonymous s put took
  have untouched := move.move.untouched kept.1 rfl
  refine ⟨.single move,rfl,by simp [addAnonymous],?_⟩
  rw [branch_congr untouched.splitters fun i made => by rw [untouched.stages i made]]
  exact not_branch_of_outside kept.1 (Nat.le_refl _)

theorem namedPipe_ok {name : String} {id : PipeId} : namedPipe name s = .ok id t ↔
    s.completed = false ∧ id = ⟨s.serial,s.pipes.size⟩ ∧ t = s.addPipe (.named name) := by
  simp only [namedPipe,bind_ok,requireOpen_ok,get_ok,modify_ok,pipeId_ok,and_assoc,
    exists_and_left,exists_eq_left,exists_const]
  rfl

theorem inputStream_ok {spec : String} {id : PipeId} : inputStream spec s = .ok id t ↔
    s.completed = false ∧ ((∃ p, s.streams.lookup spec = some p ∧ id = ⟨s.serial,p⟩ ∧ t = s) ∨
      (s.streams.lookup spec = none ∧ id = ⟨s.serial,s.pipes.size⟩ ∧ t = s.openStream spec)) := by
  simp only [inputStream,bind_ok,requireOpen_ok,get_ok,and_assoc,exists_and_left,exists_eq_left,
    exists_const]
  cases found : s.streams.lookup spec with
  | some i => simp [pipeId_ok]
  | none =>
    simp only [bind_ok,modify_ok,pipeId_ok,exists_const,exists_eq_left]
    simp [openStream,addPipe]

theorem namedPipe_moves {name : String} {id : PipeId} (kept : Ledger.Kept ⟨s,put,took,[]⟩)
    (called : namedPipe name s = .ok id t) :
    Moves ⟨s,put,took,[]⟩ ⟨t,put,took,[]⟩ ∧ t.OuterPipeId id := by
  obtain ⟨_,rfl,rfl⟩ := namedPipe_ok.mp called
  have move := Move.named s put took name
  have untouched := move.untouched kept.1 rfl
  refine ⟨.single move,rfl,by simp [addPipe],?_⟩
  rw [branch_congr untouched.splitters fun i made => by rw [untouched.stages i made]]
  exact not_branch_of_outside kept.1 (Nat.le_refl _)

theorem inputStream_moves {spec : String} {id : PipeId} (kept : Ledger.Kept ⟨s,put,took,[]⟩)
    (called : inputStream spec s = .ok id t) :
    Moves ⟨s,put,took,[]⟩ ⟨t,put,took,[]⟩ ∧ t.OuterPipeId id := by
  obtain ⟨_,⟨i,found,rfl,rfl⟩ | ⟨found,rfl,rfl⟩⟩ := inputStream_ok.mp called
  · obtain ⟨shared,_⟩ := kept.1.naming.known spec i found
    refine ⟨.refl,rfl,inside_of_shared shared,?_⟩
    rintro ⟨j,_,member⟩
    have own := kept.1.feeding.own j i member
    simp [shared] at own
  · have move := Move.stream s put took spec found
    have untouched := move.untouched kept.1 rfl
    refine ⟨.single move,rfl,by simp [openStream,addPipe],?_⟩
    rw [branch_congr untouched.splitters fun i made => by rw [untouched.stages i made]]
    exact not_branch_of_outside kept.1 (Nat.le_refl _)

theorem markPipe_ok {p : Nat} {media : Media}
    (called : updatePipe p (fun pipe => pipe.mark media) s = .ok u t) :
    ∃ settled, ((s.pipe p).media ≠ .unknown → settled = (s.pipe p).media) ∧
      t = s.paint p settled (s.pipe p).hint := by
  obtain ⟨pipe,marked,rfl⟩ := updatePipe_ok.mp called
  have result : pipe = { s.pipe p with media := pipe.media } ∧
      ((s.pipe p).media ≠ .unknown → pipe.media = (s.pipe p).media) := by
    unfold Pipe.mark at marked
    split at marked
    · cases marked
      exact ⟨rfl,fun _ => rfl⟩
    · split at marked
      · cases marked
      next unknown =>
        cases marked
        exact ⟨rfl,fun known => absurd (Classical.not_not.mp unknown) known⟩
  refine ⟨pipe.media,result.2,?_⟩
  simp only [modifyPipe,paint]
  congr 1
  refine modify_congr _ _ _ (.anonymous "") _ ?_
  exact result.1

theorem setMedia_ok {id : PipeId} {media : Media} (called : setMedia id media s = .ok u t) :
    ∃ settled, ((s.pipe id.index).media ≠ .unknown → settled = (s.pipe id.index).media) ∧
      t = s.paint id.index settled (s.pipe id.index).hint := by
  simp only [setMedia,bind_ok,pipeIndex_ok,and_assoc,exists_and_left,exists_eq_left] at called
  exact markPipe_ok called.2.2

theorem setMedia_plains {id : PipeId} {media : Media} (called : setMedia id media s = .ok u t) :
    Plains ⟨s,put,took,[]⟩ ⟨t,put,took,[]⟩ := by
  obtain ⟨settled,known,rfl⟩ := setMedia_ok called
  exact .single (.paint s put took _ _ _ known)

theorem setHint_plains {id : PipeId} {hint : String} (called : setHint id hint s = .ok u t) :
    Plains ⟨s,put,took,[]⟩ ⟨t,put,took,[]⟩ := by
  simp only [setHint,bind_ok,pipeIndex_ok,modify_ok,and_assoc,exists_and_left,
    exists_eq_left] at called
  obtain ⟨_,_,rfl⟩ := called
  have same : modifyPipe id.index (fun p => { p with hint := some hint }) s =
      s.paint id.index (s.pipe id.index).media (some hint) := by
    simp only [modifyPipe,paint]
    congr 1
    exact modify_congr _ _ _ (.anonymous "") _ rfl
  rw [same]
  exact .single (.paint s put took _ _ _ fun _ => rfl)

theorem renamePipe_ok {p : Nat} {name : String}
    (called : updatePipe p (fun pipe => pipe.rename name) s = .ok u t) :
    (s.pipe p).fixed = false ∧ t = s.retitle p name := by
  obtain ⟨pipe,renamed,rfl⟩ := updatePipe_ok.mp called
  unfold Pipe.rename at renamed
  split at renamed
  · cases renamed
  next free =>
    cases renamed
    refine ⟨by simpa using free,?_⟩
    simp only [modifyPipe,retitle]
    congr 1
    exact modify_congr _ _ _ (.anonymous "") _ rfl

theorem rename_ok {id : PipeId} {name : String} (called : rename id name s = .ok u t) :
    id.index < s.pipes.size ∧ (s.pipe id.index).fixed = false ∧ t = s.retitle id.index name := by
  simp only [rename,bind_ok,requireOpen_ok,pipeIndex_ok,and_assoc,exists_and_left,
    exists_eq_left,exists_const] at called
  obtain ⟨_,_,inside,renamed⟩ := called
  exact ⟨inside,renamePipe_ok renamed⟩

theorem rename_moves {id : PipeId} {name : String} (called : rename id name s = .ok u t) :
    Moves ⟨s,put,took,[]⟩ ⟨t,put,took,[]⟩ := by
  obtain ⟨inside,free,rfl⟩ := rename_ok called
  exact .single (.retitle s put took _ name inside free)

end Pipes

section Chains
variable {s t : Session} {put : List (Nat × Nat)} {took : List Nat} {u : Unit}

theorem inputPipes_addChain (s : Session) (list : List Nat) :
    (s.addChain list).inputPipes s.stages.size = list := by
  simp only [inputPipes,stage_addChain,if_true]
  refine List.ext_getElem? fun k => ?_
  rw [List.getElem?_map]
  by_cases small : k < list.length
  · rw [List.getElem?_range' small,Option.map_some,Nat.one_mul,reader_addChain_new s list k small]
    simp [small]
  · have none : list[k]? = Option.none := List.getElem?_eq_none (Nat.le_of_not_lt small)
    rw [none,List.getElem?_eq_none (by simpa using small)]
    rfl

theorem startOn_plains {list : List Nat} {chain : ChainId} (kept : Ledger.Kept ⟨s,put,took,[]⟩)
    (outer : ∀ p ∈ list, s.OuterPipe p) (called : startOn list s = .ok chain t) :
    Plains ⟨s,put,took,[]⟩ ⟨t,put ++ numbered s.readers.size list,took,[]⟩ ∧
      chain = ⟨s.serial,s.stages.size⟩ ∧ t.OuterChainId chain ∧ t = s.addChain list := by
  obtain ⟨rfl,rfl⟩ := startOn_ok.mp called
  have move := Plain.place s put took list (fun p member => (outer p member).1)
    fun p member => (outer p member).2
  refine ⟨.single move,rfl,⟨by rw [addChain_eq],by simp [addChain_eq],?_⟩,rfl⟩
  rw [made_congr (move.move.untouched kept.1 rfl).splitters]
  intro made
  exact Nat.lt_irrefl _ (kept.1.splitting.made_inside made)

theorem start_plains {inputs : List PipeId} {chain : ChainId}
    (kept : Ledger.Kept ⟨s,put,took,[]⟩) (outer : ∀ id ∈ inputs, s.OuterPipeId id)
    (called : start inputs s = .ok chain t) :
    Plains ⟨s,put,took,[]⟩
        ⟨t,put ++ numbered s.readers.size (inputs.map PipeId.index),took,[]⟩ ∧
      chain = ⟨s.serial,s.stages.size⟩ ∧ t.OuterChainId chain ∧
      t = s.addChain (inputs.map PipeId.index) := by
  obtain ⟨_,_,rfl,rfl⟩ := start_ok.mp called
  refine startOn_plains kept (fun p member => ?_) (startOn_ok.mpr ⟨rfl,rfl⟩)
  obtain ⟨id,listed,rfl⟩ := List.mem_map.mp member
  exact (outer id listed).2

theorem extend_plains {chain next : ChainId} {op : Operation}
    (kept : Ledger.Kept ⟨s,put,took,[]⟩) (outer : s.OuterChainId chain)
    (called : extend chain op s = .ok next t) :
    Plains ⟨s,put,took,[]⟩ ⟨t,put,took ++ s.waitingOn chain.index,[]⟩ ∧ t.OuterChainId next := by
  obtain ⟨session,inside,other⟩ := outer
  obtain ⟨_,_,_,tail,⟨vacant,rfl,resolved⟩ | ⟨full,bare,rfl,rfl⟩⟩ := extend_ok.mp called
  · have move := Plain.hold s put took next.index op inside vacant
    have held : Ledger.Kept ⟨s.hold next.index op,put,took,(s.stage next.index).inputs⟩ :=
      move.move.kept kept
    have idle (x : Nat) (member : x ∈ (s.stage next.index).inputs) :
        ((s.hold next.index op).reader x).resolved = false :=
      kept.1.reading.idle_of_vacant vacant member
    have moves := (Relation.ReflTransGen.single move).trans
      (Turns.plains (resolveAll_ok held idle resolved))
    have later := Plains.later moves kept
    have waiting : s.waitingOn next.index = (s.stage next.index).inputs := by
      simp [waitingOn,vacant]
    rw [waiting]
    exact ⟨moves,session.trans later.serial.symm,later.stage _ ⟨inside,other⟩⟩
  · have move := Plain.append s put took chain.index op full tail bare other
    have waiting : s.waitingOn chain.index = [] := by
      simp [waitingOn,Option.isNone_iff_eq_none,full]
    rw [waiting,List.append_nil]
    refine ⟨.single move,rfl,by simp [append],?_⟩
    rw [made_congr (move.move.untouched kept.1 rfl).splitters]
    intro made
    exact Nat.lt_irrefl _ (kept.1.splitting.made_inside made)

theorem open_plains {inputs : List PipeId} {chain next : ChainId} {op : Operation} {v : Session}
    (kept : Ledger.Kept ⟨s,put,took,[]⟩) (outer : ∀ id ∈ inputs, s.OuterPipeId id)
    (started : start inputs s = .ok chain v) (called : extend chain op v = .ok next t) :
    Plains ⟨s,put,took,[]⟩
        ⟨t,put ++ numbered s.readers.size (inputs.map PipeId.index),
          took ++ List.range' s.readers.size inputs.length,[]⟩ ∧
      t.OuterChainId next := by
  obtain ⟨placed,rfl,outerChain,rfl⟩ := start_plains kept outer started
  obtain ⟨extended,known⟩ := extend_plains (Plains.kept placed kept) outerChain called
  have waiting : (s.addChain (inputs.map PipeId.index)).waitingOn s.stages.size =
      List.range' s.readers.size inputs.length := by
    simp [waitingOn,stage_addChain]
  rw [waiting] at extended
  exact ⟨placed.trans extended,known⟩

theorem connect_moves {chain : ChainId} {outputs : List PipeId} (outer : s.OuterChainId chain)
    (called : connect chain outputs s = .ok u t) :
    Moves ⟨s,put,took,[]⟩ ⟨t,put,took,[]⟩ := by
  obtain ⟨_,_,_,full,_,bare,owned,distinct,unfed,rfl⟩ := connect_ok.mp called
  refine .single (.connect s put took _ _ full bare distinct (fun p member => ?_) unfed outer.2.2)
  obtain ⟨id,listed,rfl⟩ := List.mem_map.mp member
  exact (owned id listed).2

theorem link_plains {source target : ChainId} (outerA : s.OuterChainId source)
    (outerB : s.OuterChainId target) (called : link source target s = .ok u t) :
    Plains ⟨s,put,took,[]⟩ ⟨t,put,took,[]⟩ := by
  obtain ⟨_,_,insideA,_,insideB,_,tail,_,apart,rfl⟩ := link_ok.mp called
  exact .single (.splice s put took _ _ insideA insideB tail apart outerA.2.2 outerB.2.2)

theorem setArguments_plains {id : OperationId} {args : List Argument}
    (outer : s.OuterOperationId id) (called : setArguments id args s = .ok u t) :
    Plains ⟨s,put,took,[]⟩ ⟨t,put,took,[]⟩ := by
  simp only [setArguments,bind_ok,requireOpen_ok,operationIndex_ok,modify_ok,and_assoc,
    exists_and_left,exists_eq_left,exists_const] at called
  obtain ⟨_,_,_,rfl⟩ := called
  exact .single (.arguments s put took _ args outer.2.2)

end Chains

section Outputs
variable {s t : Session} {put : List (Nat × Nat)} {took : List Nat} {i : Nat}

theorem outer_of_vacant (kept : Ledger.Kept ⟨s,put,took,[]⟩) (outer : ¬ s.Made i)
    (vacant : (s.stage i).operation = none) {p : Nat} (member : p ∈ s.inputPipes i) :
    s.OuterPipe p := by
  obtain ⟨r,listed,rfl⟩ := List.mem_map.mp member
  obtain ⟨bound,owner⟩ := (kept.1.reading.pads i r).mp listed
  rcases kept.2.origin r bound with ⟨p,placed⟩ | ⟨j,belongs,made⟩
  · rw [kept.2.waiting r p placed (kept.1.reading.idle_of_vacant vacant listed)]
    exact (kept.2.placed r p placed).2
  · have same : i = j := Owner.stage.inj (owner.symm.trans belongs)
    exact absurd (same ▸ made) outer

structure Widened (s t : Session) : Prop where
  readers : t.readers = s.readers
  stages : t.stages.size = s.stages.size

theorem Widened.trans {u : Session} (first : Widened s t) (second : Widened t u) : Widened s u :=
  ⟨second.readers.trans first.readers,second.stages.trans first.stages⟩

theorem lacks_le {pads : Pads} {m n : Nat} (small : m ≤ n) (declared : pads.lacks n = false) :
    pads.lacks m = false := by
  unfold Pads.lacks at declared ⊢
  split at declared
  · simp only [decide_eq_false_iff_not,Nat.not_le] at declared ⊢
    exact Nat.lt_of_le_of_lt small declared
  · rfl

theorem addOutputs_plains {op : Operation} (count : Nat) (kept : Ledger.Kept ⟨s,put,took,[]⟩)
    (holds : s.operationAt i = some op) (other : ¬ s.Made i)
    (declared : ∀ n < (s.stage i).outputs.size + count, op.outputs.lacks n = false) :
    Plains ⟨s,put,took,[]⟩ ⟨s.addOutputs i op count,put,took,[]⟩ ∧
      Widened s (s.addOutputs i op count) := by
  induction count generalizing s with
  | zero => exact ⟨.refl,rfl,rfl⟩
  | succ count ih =>
    have plain := Plain.output s put took i op holds other (declared _ (by omega))
    have working : (s.stage i).operation ≠ none := by
      intro none
      simp [operationAt,none] at holds
    have stage := stage_addOutput s i op i (inside_of_holds working)
    rw [if_pos rfl] at stage
    have still : (s.addOutput i op).operationAt i = some op := by
      rw [← holds,operationAt,stage]
      rfl
    have apart : ¬ (s.addOutput i op).Made i := by
      rw [made_congr (plain.move.untouched kept.1 rfl).splitters]
      exact other
    have size : ((s.addOutput i op).stage i).outputs.size = (s.stage i).outputs.size + 1 := by
      rw [stage,Array.size_push]
    obtain ⟨plains,widened⟩ := ih (plain.move.kept kept) still apart
      fun n small => declared n (by omega)
    have first : Widened s (s.addOutput i op) := ⟨rfl,Array.size_modify⟩
    exact ⟨.head plain plains,first.trans widened⟩

theorem outputAt_plains {n : Nat} {answer : Option Nat} (kept : Ledger.Kept ⟨s,put,took,[]⟩)
    (outer : s.OuterStage i) (called : outputAt i n s = .ok answer t) :
    Plains ⟨s,put,took,[]⟩ ⟨t,put,took,[]⟩ ∧ Widened s t ∧
      ∀ p, answer = some p → t.OuterPipe p := by
  rcases outputAt_ok.mp called with ⟨empty,rfl,rfl⟩ | ⟨op,holds,⟨p,there,rfl,rfl⟩ | ⟨there,_,_,rest⟩⟩
  · have vacant : (t.stage i).operation = none := by simpa [operationAt] using empty
    refine ⟨.refl,⟨rfl,rfl⟩,fun p found => ?_⟩
    exact outer_of_vacant kept outer.2 vacant (List.mem_of_getElem? found)
  · refine ⟨.refl,⟨rfl,rfl⟩,fun q same => ?_⟩
    cases same
    exact outer_of_output kept.1 outer.2 (Array.mem_of_getElem? there)
  · rcases rest with ⟨_,rfl,rfl⟩ | ⟨declared,_,rfl,rfl⟩
    · exact ⟨.refl,⟨rfl,rfl⟩,fun _ same => by cases same⟩
    · have missing := Array.getElem?_eq_none_iff.mp there
      obtain ⟨moves,widened⟩ := addOutputs_plains (n + 1 - (s.stage i).outputs.size) kept holds
        outer.2 fun k small => lacks_le (by omega) declared
      refine ⟨moves,widened,fun p found => ?_⟩
      have after := (Plains.later moves kept).stage i outer
      exact outer_of_output (Plains.kept moves kept).1 after.2 (Array.mem_of_getElem? found)

theorem output_plains {chain : ChainId} {n : Nat} {id : PipeId}
    (kept : Ledger.Kept ⟨s,put,took,[]⟩) (outer : s.OuterChainId chain)
    (called : output chain n s = .ok id t) :
    Plains ⟨s,put,took,[]⟩ ⟨t,put,took,[]⟩ ∧ Widened s t ∧ t.OuterPipeId id := by
  obtain ⟨_,_,p,asked,rfl⟩ := output_ok.mp called
  obtain ⟨moves,widened,known⟩ := outputAt_plains kept outer.2 asked
  exact ⟨moves,widened,rfl,known p rfl⟩

theorem outputsFrom_plains {chain : ChainId} {n count : Nat} {done pipes : Array PipeId}
    (kept : Ledger.Kept ⟨s,put,took,[]⟩) (outer : s.OuterChainId chain)
    (before : ∀ id ∈ done, s.OuterPipeId id)
    (called : outputsFrom chain n count done s = .ok pipes t) :
    Plains ⟨s,put,took,[]⟩ ⟨t,put,took,[]⟩ ∧ Widened s t ∧ ∀ id ∈ pipes, t.OuterPipeId id := by
  induction count generalizing s n done with
  | zero =>
    obtain ⟨rfl,rfl⟩ := pure_ok.mp called
    exact ⟨.refl,⟨rfl,rfl⟩,before⟩
  | succ count ih =>
    obtain ⟨id,v,asked,called⟩ := bind_ok.mp called
    obtain ⟨moves,widened,known⟩ := output_plains kept outer asked
    have later := Plains.later moves kept
    have outerNow : v.OuterChainId chain := ⟨outer.1.trans later.serial.symm,later.stage _ outer.2⟩
    have all (other : PipeId) (member : other ∈ done.push id) : v.OuterPipeId other := by
      rcases Array.mem_push.mp member with old | rfl
      · obtain ⟨session,pipe⟩ := before other old
        exact ⟨session.trans later.serial.symm,later.pipe _ pipe⟩
      · exact known
    obtain ⟨rest,wider,answered⟩ := ih (Plains.kept moves kept) outerNow all called
    exact ⟨moves.trans rest,widened.trans wider,answered⟩

theorem takeOutputs_plains {chain : ChainId} {count : Nat} {pipes : List PipeId}
    (kept : Ledger.Kept ⟨s,put,took,[]⟩) (outer : s.OuterChainId chain)
    (called : takeOutputs chain count s = .ok pipes t) :
    Plains ⟨s,put,took,[]⟩ ⟨t,put,took,[]⟩ ∧ Widened s t ∧ ∀ id ∈ pipes, t.OuterPipeId id := by
  simp only [takeOutputs,bind_ok,pure_ok] at called
  obtain ⟨answer,_,asked,rfl,rfl⟩ := called
  obtain ⟨moves,widened,known⟩ := outputsFrom_plains kept outer (by simp) asked
  exact ⟨moves,widened,fun id member => known id (Array.mem_toList_iff.mp member)⟩

theorem outputAt_error {n : Nat} {e : GraphError} (called : outputAt i n s = .error e t) :
    t = s ∧ (s.completed = true ∧ e = .completed "outputs" ∨
      (s.stage i).next ≠ none ∧ e = .structural (.hasSuccessor (s.describe i)) ∨
      outputLimit ≤ n ∧ e = .unboundedIteration (s.describe i)) := by
  simp only [outputAt,bind_error,get_error,get_ok,false_or,and_assoc,exists_and_left,
    exists_eq_left] at called
  cases held : s.operationAt i with
  | none => simp [held,pure_error] at called
  | some op =>
    cases there : (s.stage i).outputs[n]? with
    | some p => simp [held,there,pure_error] at called
    | none =>
      simp only [held,there,bind_error,choice_error,throw_error,pure_error,modify_error,
        get_error,false_or,and_false,exists_false,or_false,requireOpen,requireTail,get_ok,
        and_assoc,exists_and_left,exists_eq_left,choice_ok,throw_ok,pure_ok,bind_ok,
        Option.isSome_iff_ne_none] at called
      grind

theorem pull_plains {n pulls : Nat} {done : Array PipeId} {answer : Iteration}
    (kept : Ledger.Kept ⟨s,put,took,[]⟩) (outer : s.OuterStage i)
    (before : ∀ id ∈ done, s.OuterPipeId id) (called : pull i n pulls done s = .ok answer t) :
    Plains ⟨s,put,took,[]⟩ ⟨t,put,took,[]⟩ ∧ ∀ id ∈ answer.pipes, t.OuterPipeId id := by
  induction pulls generalizing s n done with
  | zero =>
    obtain ⟨rfl,rfl⟩ := pure_ok.mp called
    exact ⟨.refl,fun id member => before id (Array.mem_toList_iff.mp member)⟩
  | succ pulls ih =>
    obtain ⟨found,v,asked,called⟩ := bind_ok.mp called
    clear * - ih kept outer before asked called
    rcases caught_ok.mp asked with ⟨there,succeeded,rfl⟩ | ⟨e,failed,rfl⟩
    · obtain ⟨moves,_,known⟩ := outputAt_plains kept outer succeeded
      have later := Plains.later moves kept
      have still (id : PipeId) (member : id ∈ done) : v.OuterPipeId id := by
        obtain ⟨session,pipe⟩ := before id member
        exact ⟨session.trans later.serial.symm,later.pipe _ pipe⟩
      cases there with
      | none =>
        obtain ⟨rfl,rfl⟩ := pure_ok.mp called
        exact ⟨moves,fun id member => still id (Array.mem_toList_iff.mp member)⟩
      | some p =>
        obtain ⟨id,w,made,called⟩ := bind_ok.mp called
        obtain ⟨rfl,rfl⟩ := pipeId_ok.mp made
        have all (id : PipeId) (member : id ∈ done.push ⟨w.serial,p⟩) : w.OuterPipeId id := by
          rcases Array.mem_push.mp member with old | rfl
          · exact still id old
          · exact ⟨rfl,known p rfl⟩
        obtain ⟨rest,answered⟩ := ih (Plains.kept moves kept) (later.stage _ outer) all called
        exact ⟨moves.trans rest,answered⟩
    · obtain ⟨rfl,_⟩ := outputAt_error failed
      obtain ⟨rfl,rfl⟩ := pure_ok.mp called
      exact ⟨.refl,fun id member => before id (Array.mem_toList_iff.mp member)⟩

theorem iterate_plains {chain : ChainId} {limit : Option Nat} {answer : Iteration}
    (kept : Ledger.Kept ⟨s,put,took,[]⟩) (outer : s.OuterChainId chain)
    (called : iterate chain limit s = .ok answer t) :
    Plains ⟨s,put,took,[]⟩ ⟨t,put,took,[]⟩ ∧ ∀ id ∈ answer.pipes, t.OuterPipeId id := by
  simp only [iterate,bind_ok,stageIndex_ok,get_ok,and_assoc,exists_and_left,exists_eq_left] at called
  obtain ⟨_,_,pulled⟩ := called
  exact pull_plains kept outer.2 (by simp) pulled

theorem fork_plains {chain next : ChainId} {count : Nat} (kept : Ledger.Kept ⟨s,put,took,[]⟩)
    (outer : s.OuterChainId chain) (called : fork chain count s = .ok next t) :
    Plains ⟨s,put,took,[]⟩ ⟨t,put ++ numbered s.readers.size (t.inputPipes next.index),took,[]⟩ ∧
      t.OuterChainId next := by
  simp only [fork,bind_ok,requireOpen_ok,stageIndex_ok,requireTail_ok,get_ok,choice_ok,throw_ok,
    and_assoc,exists_and_left,exists_eq_left,exists_const,Option.isNone_iff_eq_none,
    false_and,exists_false,and_false,false_or] at called
  obtain ⟨_,_,_,_,⟨vacant,_,started⟩ | ⟨_,pipes,v,taken,started⟩⟩ := called
  · have known (p : Nat) (member : p ∈ (s.inputPipes chain.index).take count) : s.OuterPipe p :=
      outer_of_vacant kept outer.2.2 vacant (List.mem_of_mem_take member)
    obtain ⟨moves,rfl,answered,rfl⟩ := startOn_plains kept known started
    rw [inputPipes_addChain]
    exact ⟨moves,answered⟩
  · obtain ⟨first,widened,known⟩ := takeOutputs_plains kept outer taken
    obtain ⟨second,rfl,answered,rfl⟩ := start_plains (Plains.kept first kept) known started
    rw [inputPipes_addChain,← congrArg Array.size widened.readers]
    exact ⟨first.trans second,answered⟩

end Outputs

end MediaGraph.Session
