import MediaGraph.Proofs.Changes

/-! The names of the operations that a program adds.
Operations keep their names and new ones come behind them. So what a call adds is told by the names of
its own operations, beside those of the splits that readers get their pipes from. -/
namespace MediaGraph.Session
open Relation

def operationNames (s : Session) : Array String := s.operations.map Operation.name

structure Gains (names : String → Prop) (s t : Session) : Prop where
  catalog : t.catalog = s.catalog
  added : ∃ more : Array String, t.operationNames = s.operationNames ++ more ∧ ∀ name ∈ more, names name

def Divider (name : String) : Prop := name = "split" ∨ name = "asplit"

section Steps
variable {names wider : String → Prop} {s t u : Session}

theorem Gains.of_names (catalog : t.catalog = s.catalog)
    (same : t.operationNames = s.operationNames) : Gains names s t :=
  ⟨catalog,#[],by rw [same,Array.append_empty],by simp⟩

theorem Gains.of_same (catalog : t.catalog = s.catalog) (operations : t.operations = s.operations) :
    Gains names s t :=
  .of_names catalog (by rw [operationNames,operations]; rfl)

theorem Gains.refl (s : Session) : Gains names s s := .of_same rfl rfl

theorem Gains.trans (first : Gains names s t) (second : Gains names t u) : Gains names s u := by
  obtain ⟨catalog,more,here,listed⟩ := first
  obtain ⟨catalog',more',there,listed'⟩ := second
  refine ⟨catalog'.trans catalog,more ++ more',by rw [there,here,Array.append_assoc],fun name member => ?_⟩
  exact (Array.mem_append.mp member).elim (listed name) (listed' name)

theorem Gains.mono (gains : Gains names s t) (wide : ∀ name, names name → wider name) :
    Gains wider s t := by
  obtain ⟨catalog,more,here,listed⟩ := gains
  exact ⟨catalog,more,here,fun name member => wide name (listed name member)⟩

theorem Gains.of_push {op : Operation} (catalog : t.catalog = s.catalog)
    (operations : t.operations = s.operations.push op) (listed : names op.name) : Gains names s t := by
  refine ⟨catalog,#[op.name],?_,by simpa using listed⟩
  rw [operationNames,operations,Array.map_push,Array.push_eq_append]
  rfl

theorem gains_of_steps (steps : ReflTransGen (Gains names) s t) : Gains names s t := by
  induction steps with
  | refl => exact .refl s
  | tail _ step ih => exact ih.trans step

theorem Does.gains {α : Type} {x : Build α} {a : α} (does : Does (Gains names) x s)
    (called : x s = .ok a t) : Gains names s t := gains_of_steps (does.ok called)

theorem Does.widen {α : Type} {x : Build α} (does : Does (Gains names) x s)
    (wide : ∀ name, names name → wider name) : Does (Gains wider) x s :=
  ReflTransGen.mono (fun _ _ gains => gains.mono wide) _ _ does

theorem size_names (s : Session) : s.operationNames.size = s.operations.size := Array.size_map ..

theorem getElem?_names {o : Nat} (inside : o < s.operations.size) :
    s.operationNames[o]? = some (s.operation o).name := by
  simp [operationNames,operation,inside]

theorem Gains.size (gains : Gains names s t) : s.operations.size ≤ t.operations.size := by
  obtain ⟨_,more,here,_⟩ := gains
  have sizes := congrArg Array.size here
  rw [Array.size_append,size_names,size_names] at sizes
  omega

theorem Gains.size_eq (gains : Gains (fun _ => False) s t) : t.operations.size = s.operations.size := by
  obtain ⟨_,more,here,none⟩ := gains
  have empty : more = #[] := Array.eq_empty_iff_forall_not_mem.mpr none
  have sizes := congrArg Array.size here
  rw [empty,Array.append_empty,size_names,size_names] at sizes
  exact sizes

theorem Gains.kept (gains : Gains names s t) {o : Nat} (inside : o < s.operations.size) :
    (t.operation o).name = (s.operation o).name := by
  have later := getElem?_names (Nat.lt_of_lt_of_le inside gains.size)
  obtain ⟨_,more,here,_⟩ := gains
  rw [here,Array.getElem?_append_left (by rwa [size_names]),getElem?_names inside] at later
  exact (Option.some.inj later).symm

theorem Gains.new (gains : Gains names s t) {o : Nat} (old : s.operations.size ≤ o)
    (inside : o < t.operations.size) : names (t.operation o).name := by
  have found := getElem?_names inside
  obtain ⟨_,more,here,listed⟩ := gains
  rw [here,Array.getElem?_append_right (by rwa [size_names])] at found
  exact listed _ (Array.mem_of_getElem? found)

theorem Growth.gains (growth : Growth s t) : Gains (fun _ => True) s t := by
  cases growth with
  | paint frozen => exact .of_same (by rw [frozen.rest]) (by rw [frozen.rest])
  | tables _ kept => exact .of_names kept.catalog kept.named
  | place pipes => exact .of_same (by rw [addChain_eq]) (by rw [addChain_eq])
  | hold i op => exact .of_push rfl rfl trivial
  | append i op => exact .of_push rfl rfl trivial
  | connect => exact .of_same rfl rfl
  | output => exact .of_same rfl rfl
  | attach p name => exact .of_push rfl rfl trivial

theorem Change.gains (change : Change s t) : Gains (fun _ => True) s t := by
  cases change with
  | growth growth => exact growth.gains
  | pipe _ _ _ catalog operations => exact .of_same catalog operations
  | splice => exact .of_same rfl rfl
  | close => exact .of_same rfl rfl

theorem gains_of_changes (changes : ReflTransGen Change s t) : Gains (fun _ => True) s t :=
  gains_of_steps (ReflTransGen.mono (fun _ _ => Change.gains) _ _ changes)

end Steps

/-! Calls that add no operation. -/

section Still
variable {names : String → Prop} {s : Session}

theorem updatePipe_gains {i : Nat} {f : Pipe → Except GraphError Pipe} :
    Does (Gains names) (updatePipe i f) s := by
  refine .of_get ?_
  split
  next => exact .of_modify (.single (.of_same rfl rfl))
  next => exact .of_throw _

theorem addOutputs_gains (i : Nat) (op : Operation) (count : Nat) (s : Session) :
    Gains names s (s.addOutputs i op count) := by
  induction count generalizing s with
  | zero => exact .refl s
  | succ count ih =>
    have made : Gains names s (s.addOutput i op) := .of_same rfl rfl
    exact made.trans (ih (s.addOutput i op))

theorem outputAt_gains {i n : Nat} : Does (Gains names) (outputAt i n) s := by
  refine .of_get ?_
  split
  next => exact .of_pure _
  next op _ =>
    split
    next => exact .of_pure _
    next =>
      refine .of_check (leaves_requireOpen _) fun _ _ => .of_check (leaves_requireTail i) fun _ _ => ?_
      refine .of_branch (fun _ => .of_pure _) fun _ => .of_branch (fun _ => .of_raise) fun _ => ?_
      exact .of_bind (.of_modify (.single (addOutputs_gains ..))) fun _ _ _ => .of_get (.of_pure _)

theorem takeOutputs_gains {chain : ChainId} {count : Nat} :
    Does (Gains names) (takeOutputs chain count) s :=
  .of_takeOutputs (fun _ _ _ => outputAt_gains) ..

theorem start_gains {inputs : List PipeId} : Does (Gains names) (start inputs) s := by
  refine .of_check (leaves_requireOpen _) fun _ _ => .of_check (leaves_pipeIndices inputs) fun pipes _ => ?_
  have placed : Gains names s (s.addChain pipes) :=
    .of_same (by rw [addChain_eq]) (by rw [addChain_eq])
  exact .of_get (.of_bind (.of_modify (.single placed)) fun _ _ _ => .of_same rfl)

theorem inputStream_gains {spec : String} : Does (Gains names) (inputStream spec) s := by
  refine .of_check (leaves_requireOpen _) fun _ _ => .of_get ?_
  split
  next => exact .of_same rfl
  next => exact .of_bind (.of_modify (.single (.of_same rfl rfl))) fun _ _ _ => .of_same rfl

theorem markInputs_gains {pairs : List (PipeId × Media)} :
    Does (Gains names) (markInputs pairs) s :=
  .of_markInputs (fun _ _ _ => updatePipe_gains) ..

theorem markStreams_gains {streams : List (List PipeId)} :
    Does (Gains names) (Concat.markStreams streams) s :=
  .of_markStreams (fun _ _ _ => updatePipe_gains) ..

end Still

/-! Calls that give pipes to readers, and calls that place operations. -/

section Placing
variable {s : Session}

theorem divider_of_filter {media : Media} {subject name : String}
    (known : Helper.split.filter media subject = .ok name) : Divider name := by
  cases media <;> simp_all [Helper.filter,Divider,eq_comm]

theorem nextBranch_gains {i : Nat} : Does (Gains Divider) (nextBranch i) s := by
  refine .of_get (.of_bind outputAt_gains fun answer t _ => ?_)
  split
  next => exact .of_get (.of_throw _)
  next out _ =>
    have finish {v : Session} : Does (Gains Divider) (do
        let s ← get
        let media := ((s.inputPipes i).head?.map fun source => (s.pipe source).media)
        updatePipe out fun p => p.mark (media.getD .unknown)
        updatePipe out Pipe.take
        return out) v :=
      .of_get (.of_bind updatePipe_gains fun _ _ _ => .of_bind updatePipe_gains fun _ _ _ => .of_pure _)
    split
    next =>
      exact .of_bind (.of_modify (.single (.of_names rfl (names_arguments ..)))) fun _ _ _ => finish
    next => exact finish

theorem rebind_gains (r target : Nat) (s : Session) : Gains Divider s (s.rebind r target) := by
  unfold rebind
  dsimp only
  split <;> exact .of_same rfl rfl

theorem moveReaders_gains {i : Nat} {readers : List Nat} :
    Does (Gains Divider) (moveReaders i readers) s := by
  induction readers generalizing s with
  | nil => exact .of_pure _
  | cons r rest ih =>
    refine .of_bind nextBranch_gains fun out t _ => ?_
    exact .of_bind (.of_modify (.single (rebind_gains ..))) fun _ _ _ => ih

theorem insertSplitter_gains {p : Nat} : Does (Gains Divider) (insertSplitter p) s := by
  refine .of_get ?_
  dsimp only
  split
  next => exact .of_throw _
  next name known =>
    have attached : Gains Divider s (s.attach p name) := .of_push rfl rfl (divider_of_filter known)
    rw [← attach_eq] at attached
    refine .of_bind (.of_modify (.single attached)) fun _ _ _ => .of_get ?_
    exact .of_bind moveReaders_gains fun _ _ _ => .of_pure _

theorem branch_gains {p : Nat} : Does (Gains Divider) (branch p) s := by
  refine .of_get ?_
  split
  next => exact nextBranch_gains
  next => exact .of_bind insertSplitter_gains fun _ _ _ => nextBranch_gains

theorem resolve_gains {r : Nat} : Does (Gains Divider) (resolve r) s := by
  refine .of_get (.of_branch (fun _ => ?_) fun _ => ?_)
  · exact .of_bind updatePipe_gains fun _ _ _ => .of_modify (.single (.of_same rfl rfl))
  · refine .of_bind branch_gains fun out t _ => ?_
    refine .of_bind (.of_modify (.single (.of_same rfl rfl))) fun _ _ _ => ?_
    exact .of_modify (.single (rebind_gains ..))

theorem resolveAll_gains {readers : List Nat} : Does (Gains Divider) (resolveAll readers) s := by
  induction readers generalizing s with
  | nil => exact .of_pure _
  | cons r rest ih => exact .of_bind resolve_gains fun _ _ _ => ih

/-- What is placed under a name comes with splits at most. -/
def WithSplits (name other : String) : Prop := other = name ∨ Divider other

theorem extend_gains {chain : ChainId} {op : Operation} :
    Does (Gains (WithSplits op.name)) (extend chain op) s := by
  refine .of_check (leaves_requireOpen _) fun _ _ => .of_check (leaves_stageIndex chain) fun i _ => ?_
  refine .of_check (leaves_requireTail i) fun _ _ => .of_get ?_
  refine .of_branch (fun _ => ?_) fun _ => .of_branch (fun _ => .of_throw _) fun _ => ?_
  · refine .of_bind (.of_modify (.single (.of_push rfl rfl (.inl rfl)))) fun _ _ _ => ?_
    exact .of_bind (resolveAll_gains.widen fun _ => .inr) fun _ _ _ => .of_pure _
  · exact .of_bind (.of_modify (.single (.of_push rfl rfl (.inl rfl)))) fun _ _ _ => .of_same rfl

theorem place_gains {inputs : List PipeId} {op : Operation} :
    Does (Gains (WithSplits op.name)) (place inputs op) s := by
  refine .of_check (leaves_requireOpen _) fun _ _ => .of_get ?_
  split
  · exact .of_bind markInputs_gains fun _ _ _ => .of_bind start_gains fun _ _ _ => extend_gains
  · exact .of_bind start_gains fun _ _ _ => extend_gains

theorem finalize_gains {c : Concat} :
    Does (Gains (WithSplits "concat")) c.finalize s := by
  unfold Concat.finalize
  split
  next => exact .of_pure _
  next =>
    refine .of_branch (fun _ => .of_raise) fun _ => .of_bind markStreams_gains fun media _ _ => ?_
    refine .of_bind start_gains fun _ _ _ => ?_
    refine .of_bind (extend_gains.widen fun _ => id) fun _ _ _ => ?_
    exact .of_bind takeOutputs_gains fun _ _ _ => .of_pure _

end Placing
end MediaGraph.Session
