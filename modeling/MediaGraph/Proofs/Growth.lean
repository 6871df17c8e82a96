import MediaGraph.Concat
import MediaGraph.Proofs.Effects
import MediaGraph.Proofs.FanOut
import MediaGraph.Script.Build

/-! The steps of programs, failed ones included.
Unlike moves, these steps ask nothing of the handles of a call and stand for what a
call did before it failed as well. A step that changes a stage says what the checks of
the call have seen of it. -/
namespace MediaGraph.Session
open Relation

/-- Only the media and the hints of pipes may differ. -/
structure Frozen (s t : Session) : Prop where
  rest : t = { s with pipes := t.pipes }
  size : t.pipes.size = s.pipes.size
  pipe : ∀ p, t.pipe p = { s.pipe p with media := (t.pipe p).media, hint := (t.pipe p).hint }

/-- A pipe that is not fed was there and was not fed, and pipes stay shared or not. -/
structure Supplied (s t : Session) : Prop where
  size : s.pipes.size ≤ t.pipes.size
  fed : ∀ p, p < t.pipes.size → (t.pipe p).fed = false → p < s.pipes.size ∧ (s.pipe p).fed = false
  shared : ∀ p, p < s.pipes.size → (t.pipe p).shared = (s.pipe p).shared

/-- Readers stay where they belong; ones that leave the graph may be added. -/
structure Owned (s t : Session) : Prop where
  size : s.readers.size ≤ t.readers.size
  old : ∀ r, r < s.readers.size → (t.reader r).owner = (s.reader r).owner
  new : ∀ r, s.readers.size ≤ r → r < t.readers.size → (t.reader r).owner = .exported

structure ChainsKept (s t : Session) : Prop where
  stages : t.stages = s.stages
  roots : t.roots = s.roots
  serial : t.serial = s.serial
  catalog : t.catalog = s.catalog
  completed : t.completed = s.completed
  supplied : Supplied s t
  owned : Owned s t
  named : t.operations.map Operation.name = s.operations.map Operation.name

/-- One step of building a graph. Only colours may change once a graph is completed. -/
inductive Growth : Session → Session → Prop
  | paint {s t} (frozen : Frozen s t) : Growth s t
  | tables {s t} (isOpen : s.completed = false) (kept : ChainsKept s t) : Growth s t
  | place {s} (pipes) (isOpen : s.completed = false) : Growth s (s.addChain pipes)
  | hold {s} (i op) (isOpen : s.completed = false) (inside : i < s.stages.size)
      (vacant : (s.stage i).operation = none) : Growth s (s.hold i op)
  | append {s} (i op) (isOpen : s.completed = false) (holds : (s.stage i).operation ≠ none)
      (tail : (s.stage i).next = none) (bare : (s.stage i).outputs = #[]) :
      Growth s (s.append i op)
  | connect {s} (i pipes) (isOpen : s.completed = false) (holds : (s.stage i).operation ≠ none)
      (tail : (s.stage i).next = none) (bare : (s.stage i).outputs = #[])
      (distinct : pipes.toList.Nodup) (inside : ∀ p ∈ pipes, p < s.pipes.size) :
      Growth s (s.modifyStage i fun stage => { stage with outputs := pipes })
  | output {s} (i op) (isOpen : s.completed = false) (holds : s.operationAt i = some op)
      (tail : (s.stage i).next = none) : Growth s (s.addOutput i op)
  | attach {s} (p name) (isOpen : s.completed = false) : Growth s (s.attach p name)

section Steps
variable {s t : Session}

theorem Supplied.of_pipes (pipes : t.pipes = s.pipes) : Supplied s t := by
  have same (p : Nat) : t.pipe p = s.pipe p := by rw [pipe,pipes]; rfl
  exact ⟨Nat.le_of_eq (congrArg Array.size pipes.symm),
    fun p inside unfed => ⟨pipes ▸ inside,same p ▸ unfed⟩,fun p _ => congrArg Pipe.shared (same p)⟩

theorem Supplied.trans {u : Session} (first : Supplied s t) (second : Supplied t u) :
    Supplied s u where
  size := Nat.le_trans first.size second.size
  fed p inside unfed := by
    obtain ⟨bound,before⟩ := second.fed p inside unfed
    exact first.fed p bound before
  shared p inside :=
    (second.shared p (Nat.lt_of_lt_of_le inside first.size)).trans (first.shared p inside)

theorem Supplied.of_pipe (i : Nat) {f : Pipe → Pipe}
    (fed : (s.pipe i).fed = true → (f (s.pipe i)).fed = true)
    (shared : (f (s.pipe i)).shared = (s.pipe i).shared) : Supplied s (s.modifyPipe i f) where
  size := Nat.le_of_eq Array.size_modify.symm
  fed p inside unfed := by
    have bound : p < s.pipes.size := by simpa [modifyPipe] using inside
    refine ⟨bound,?_⟩
    rw [pipe_modifyPipe] at unfed
    split at unfed
    next same =>
      obtain ⟨rfl,_⟩ := same
      cases before : (s.pipe p).fed with
      | false => rfl
      | true => exact absurd (fed before) (by simp [unfed])
    next => exact unfed
  shared p _ := by
    rw [pipe_modifyPipe]
    split
    next same => rw [same.1,shared]
    next => rfl

theorem Supplied.of_push {pipe : Pipe} (fed : pipe.fed = true) : Supplied s (s.addPipe pipe) where
  size := by simp [addPipe]
  fed p inside unfed := by
    have bound : p < s.pipes.size + 1 := by simpa [addPipe] using inside
    rw [pipe_addPipe] at unfed
    split at unfed
    next => simp [fed] at unfed
    next other => exact ⟨by omega,unfed⟩
  shared p inside := by rw [pipe_addPipe,if_neg (Nat.ne_of_lt inside)]

theorem Owned.of_readers (readers : t.readers = s.readers) : Owned s t := by
  refine ⟨Nat.le_of_eq (congrArg Array.size readers.symm),fun r _ => ?_,fun r low high => ?_⟩
  · rw [reader,readers]
    rfl
  · rw [readers] at high
    omega

theorem Owned.trans {u : Session} (first : Owned s t) (second : Owned t u) : Owned s u where
  size := Nat.le_trans first.size second.size
  old r inside := (second.old r (Nat.lt_of_lt_of_le inside first.size)).trans (first.old r inside)
  new r low high := by
    rcases Nat.lt_or_ge r t.readers.size with before | after
    · exact (second.old r before).trans (first.new r low before)
    · exact second.new r after high

theorem ChainsKept.of_pipe (i : Nat) {f : Pipe → Pipe}
    (fed : (s.pipe i).fed = true → (f (s.pipe i)).fed = true)
    (shared : (f (s.pipe i)).shared = (s.pipe i).shared) : ChainsKept s (s.modifyPipe i f) :=
  ⟨rfl,rfl,rfl,rfl,rfl,.of_pipe i fed shared,.of_readers rfl,rfl⟩

theorem ChainsKept.of_reader (r : Nat) {f : Reader → Reader} (owner : ∀ x, (f x).owner = x.owner) :
    ChainsKept s (s.modifyReader r f) := by
  refine ⟨rfl,rfl,rfl,rfl,rfl,.of_pipes rfl,
    ⟨Nat.le_of_eq Array.size_modify.symm,fun x _ => ?_,?_⟩,rfl⟩
  · rw [reader,modifyReader,getD_modify]
    split
    · exact owner _
    · rfl
  · intro x low high
    simp only [modifyReader,Array.size_modify] at high
    omega

theorem names_arguments (s : Session) (o : Nat) (args : List Argument) :
    (s.putArguments o args).operations.map Operation.name = s.operations.map Operation.name := by
  apply Array.ext_getElem?
  intro k
  simp only [putArguments,Array.getElem?_map,Array.getElem?_modify]
  split
  · rw [Option.map_map]
    rfl
  · rfl

theorem ChainsKept.of_arguments (o : Nat) (args : List Argument) :
    ChainsKept s (s.putArguments o args) :=
  ⟨rfl,rfl,rfl,rfl,rfl,.of_pipes rfl,.of_readers rfl,names_arguments ..⟩

theorem ChainsKept.of_addReader (p : Nat) : ChainsKept s (s.addReader p .exported) := by
  have noted : Supplied s (s.modifyPipe p (note [s.readers.size])) :=
    .of_pipe p (fun fed => (note_fed ..).trans fed) (note_shared ..)
  have record := addReader_eq p .exported s
  refine ⟨by rw [record],by rw [record],by rw [record],by rw [record],by rw [record],?_,
    ⟨?_,?_,?_⟩,by rw [record]⟩
  · rw [record]
    exact noted.trans (.of_pipes rfl)
  · simp [record]
  · intro r inside
    rw [reader_addReader,if_neg (Nat.ne_of_lt inside)]
  · intro r low high
    have last : r = s.readers.size := by
      simp only [record,Array.size_push] at high
      omega
    rw [reader_addReader,if_pos last]

theorem ChainsKept.of_stream {streams : List (String × Nat)} {pipe : Pipe} (fed : pipe.fed = true) :
    ChainsKept s { s.addPipe pipe with streams := streams } :=
  ⟨rfl,rfl,rfl,rfl,rfl,(Supplied.of_push fed).trans (.of_pipes rfl),.of_readers rfl,rfl⟩

theorem ChainsKept.trans {u : Session} (first : ChainsKept s t) (second : ChainsKept t u) :
    ChainsKept s u where
  stages := second.stages.trans first.stages
  roots := second.roots.trans first.roots
  serial := second.serial.trans first.serial
  catalog := second.catalog.trans first.catalog
  completed := second.completed.trans first.completed
  supplied := first.supplied.trans second.supplied
  owned := first.owned.trans second.owned
  named := second.named.trans first.named

theorem Frozen.of_pipe (i : Nat) {f : Pipe → Pipe}
    (same : f (s.pipe i) = { s.pipe i with media := (f (s.pipe i)).media, hint := (f (s.pipe i)).hint }) :
    Frozen s (s.modifyPipe i f) where
  rest := rfl
  size := Array.size_modify
  pipe p := by
    rw [pipe_modifyPipe]
    split
    next here =>
      obtain ⟨rfl,_⟩ := here
      exact same
    next => rfl

theorem Growth.completed (growth : Growth s t) : t.completed = s.completed := by
  cases growth with
  | paint frozen => rw [frozen.rest]
  | tables _ kept => exact kept.completed
  | place pipes _ => rw [addChain_eq]
  | _ => rfl

theorem completed_eq (grown : ReflTransGen Growth s t) : t.completed = s.completed := by
  induction grown with
  | refl => rfl
  | tail _ growth ih => exact growth.completed.trans ih

end Steps

theorem Does.of_step {α β : Type} {s : Session} {x : Build α} {f : α → Build β}
    (isOpen : s.completed = false) (first : Does Growth x s)
    (next : ∀ a t, x s = .ok a t → t.completed = false → Does Growth (f a) t) :
    Does Growth (x >>= f) s :=
  .of_bind first fun a t called => next a t called ((completed_eq (first.ok called)).trans isOpen)

/-! The programs that the calls are made of. -/

section Parts
variable {s t : Session}

theorem updatePipe_does {i : Nat} {f : Pipe → Except GraphError Pipe} (isOpen : s.completed = false)
    (kept : ∀ p q, f p = .ok q → (p.fed = true → q.fed = true) ∧ q.shared = p.shared) :
    Does Growth (updatePipe i f) s := by
  refine .of_get ?_
  split
  next q changed =>
    obtain ⟨fed,shared⟩ := kept _ q changed
    exact .of_modify (.single (.tables isOpen (.of_pipe i fed shared)))
  next => exact .of_throw _

theorem feed_does {i : Nat} (isOpen : s.completed = false) :
    Does Growth (updatePipe i Pipe.feed) s := by
  refine updatePipe_does isOpen fun p q fed => ?_
  simp only [Pipe.feed] at fed
  split at fed <;> cases fed
  exact ⟨fun _ => rfl,rfl⟩

theorem take_does {i : Nat} (isOpen : s.completed = false) :
    Does Growth (updatePipe i Pipe.take) s := by
  refine updatePipe_does isOpen fun p q took => ?_
  simp only [Pipe.take] at took
  split at took
  · cases took
    exact ⟨id,rfl⟩
  · split at took <;> cases took
    exact ⟨id,rfl⟩

theorem renameAt_does {i : Nat} {name : String} (isOpen : s.completed = false) :
    Does Growth (updatePipe i fun p => p.rename name) s := by
  refine updatePipe_does isOpen fun p q renamed => ?_
  simp only [Pipe.rename] at renamed
  split at renamed <;> cases renamed
  exact ⟨id,rfl⟩

theorem mark_eq {p q : Pipe} {media : Media} (marked : p.mark media = .ok q) :
    q = { p with media := q.media } := by
  simp only [Pipe.mark] at marked
  split at marked
  · cases marked; rfl
  · split at marked <;> cases marked
    rfl

theorem mark_does {i : Nat} {media : Media} :
    Does Growth (updatePipe i fun p => p.mark media) s := by
  refine .of_get ?_
  split
  next q marked =>
    refine .of_modify (.single (.paint (.of_pipe i ?_)))
    rw [mark_eq marked]
  next => exact .of_throw _

theorem holds_inside {i : Nat} {op : Operation} (holds : s.operationAt i = some op) :
    i < s.stages.size := by
  obtain ⟨o,found,_⟩ := Option.map_eq_some_iff.mp holds
  exact getD_bound s.stages .empty i fun same => by
    have none : s.stage i = .empty := same
    simp [none,Stage.empty] at found

theorem addOutputs_grow {i count : Nat} {op : Operation} (isOpen : s.completed = false)
    (holds : s.operationAt i = some op) (tail : (s.stage i).next = none) :
    ReflTransGen Growth s (s.addOutputs i op count) := by
  induction count generalizing s with
  | zero => exact .refl
  | succ count ih =>
    have stage := stage_addOutput s i op i (holds_inside holds)
    rw [if_pos rfl] at stage
    refine .head (.output i op isOpen holds tail) (ih isOpen ?_ ?_)
    · rw [operationAt,stage]
      exact holds
    · rw [stage]
      exact tail

theorem outputAt_does {i n : Nat} : Does Growth (outputAt i n) s := by
  refine .of_get ?_
  split
  next => exact .of_pure _
  next op holds =>
    split
    next => exact .of_pure _
    next =>
      refine .of_check (leaves_requireOpen _) fun _ opened => ?_
      refine .of_check (leaves_requireTail i) fun _ last => ?_
      obtain ⟨isOpen,_⟩ := requireOpen_ok.mp opened
      obtain ⟨tail,_⟩ := requireTail_ok.mp last
      refine .of_branch (fun _ => .of_pure _) fun _ => ?_
      refine .of_branch (fun _ => .of_raise) fun _ => ?_
      refine .of_bind (.of_modify (addOutputs_grow isOpen holds tail)) fun _ t _ => ?_
      exact .of_get (.of_pure _)

theorem output_does {chain : ChainId} {n : Nat} : Does Growth (output chain n) s :=
  .of_output (fun _ _ _ => outputAt_does) ..

theorem takeOutputs_does {chain : ChainId} {count : Nat} :
    Does Growth (takeOutputs chain count) s :=
  .of_takeOutputs (fun _ _ _ => outputAt_does) ..

theorem iterate_does {chain : ChainId} {limit : Option Nat} : Does Growth (iterate chain limit) s :=
  .of_iterate (fun _ _ _ => outputAt_does) ..

theorem nextBranch_does {i : Nat} (isOpen : s.completed = false) :
    Does Growth (nextBranch i) s := by
  refine .of_get (.of_step isOpen outputAt_does fun answer t _ opened => ?_)
  split
  next => exact .of_check rfl fun _ _ => .of_throw _
  next out _ =>
    have finish {v : Session} (isOpen : v.completed = false) : Does Growth (do
        let s ← get
        let media := ((s.inputPipes i).head?.map fun source => (s.pipe source).media)
        updatePipe out fun p => p.mark (media.getD .unknown)
        updatePipe out Pipe.take
        return out) v :=
      .of_get (.of_step isOpen mark_does fun _ _ _ opened =>
        .of_bind (take_does opened) fun _ _ _ => .of_pure _)
    split
    next => exact .of_change (.tables opened (.of_arguments ..)) (finish opened)
    next => exact finish opened

theorem markResolved_grows (r : Nat) (isOpen : s.completed = false) :
    Growth s (s.markResolved r) :=
  .tables isOpen (.of_reader r fun _ => rfl)

theorem rebind_grows (r target : Nat) (isOpen : s.completed = false) :
    Growth s (s.rebind r target) := by
  refine .tables isOpen ?_
  unfold rebind
  have moved : ChainsKept s (modifyReader r (fun reader => { reader with pipe := target })
      ((s.modifyPipe (s.reader r).pipe fun p => { p with readers := p.readers.filter (· != r) }).modifyPipe
        target fun p => { p with readers := p.readers ++ [r] })) :=
    ((ChainsKept.of_pipe _ id rfl).trans (.of_pipe target id rfl)).trans (.of_reader r fun _ => rfl)
  dsimp only
  split
  · exact (moved.trans (.of_pipe _ id rfl)).trans (.of_pipe target id rfl)
  · exact moved

theorem moveReaders_does {i : Nat} {readers : List Nat} (isOpen : s.completed = false) :
    Does Growth (moveReaders i readers) s := by
  induction readers generalizing s with
  | nil => exact .of_pure _
  | cons r rest ih =>
    refine .of_step isOpen (nextBranch_does isOpen) fun out t _ opened => ?_
    have moved := rebind_grows r out opened
    exact .of_change moved (ih (moved.completed.trans opened))

theorem insertSplitter_does {p : Nat} (isOpen : s.completed = false) :
    Does Growth (insertSplitter p) s := by
  refine .of_get ?_
  dsimp only
  split
  next => exact .of_throw _
  next name _ =>
    refine .of_change ?_ (.of_get (.of_bind (moveReaders_does ?_) fun _ _ _ => .of_pure _))
    · rw [attach_eq]
      exact .attach p name isOpen
    · rw [attach_eq]
      exact isOpen

theorem branch_does {p : Nat} (isOpen : s.completed = false) : Does Growth (branch p) s := by
  refine .of_get ?_
  split
  next => exact nextBranch_does isOpen
  next => exact .of_step isOpen (insertSplitter_does isOpen) fun _ _ _ => nextBranch_does

theorem resolve_does {r : Nat} (isOpen : s.completed = false) : Does Growth (resolve r) s := by
  refine .of_get (.of_branch (fun _ => ?_) fun _ => ?_)
  · exact .of_step isOpen (take_does isOpen) fun _ _ _ opened =>
      .of_modify (.single (markResolved_grows r opened))
  · exact .of_step isOpen (branch_does isOpen) fun out _ _ opened =>
      .of_change (markResolved_grows r opened) (.of_modify (.single (rebind_grows r out opened)))

theorem resolveAll_does {readers : List Nat} (isOpen : s.completed = false) :
    Does Growth (resolveAll readers) s := by
  induction readers generalizing s with
  | nil => exact .of_pure _
  | cons r rest ih => exact .of_step isOpen (resolve_does isOpen) fun _ _ _ => ih

theorem startOn_does {pipes : List Nat} (isOpen : s.completed = false) :
    Does Growth (startOn pipes) s :=
  .of_get (.of_change (.place pipes isOpen) (.of_same rfl))

theorem Does.of_guard {β : Type} {call : String} {f : Unit → Build β} {step : Session → Session → Prop}
    (next : s.completed = false → Does step (f ()) s) : Does step (requireOpen call >>= f) s :=
  .of_check (leaves_requireOpen call) fun _ opened => next (requireOpen_ok.mp opened).1

theorem start_does {inputs : List PipeId} : Does Growth (start inputs) s :=
  .of_guard fun isOpen => .of_check (leaves_pipeIndices inputs) fun _ _ => startOn_does isOpen

theorem extend_does {chain : ChainId} {op : Operation} : Does Growth (extend chain op) s := by
  refine .of_guard fun isOpen => ?_
  refine .of_check (leaves_stageIndex chain) fun i found => ?_
  refine .of_check (leaves_requireTail i) fun _ last => .of_get ?_
  obtain ⟨_,inside,rfl,_⟩ := stageIndex_ok.mp found
  obtain ⟨tail,_⟩ := requireTail_ok.mp last
  refine .of_branch (fun vacant => ?_) fun full => .of_branch (fun _ => .of_throw _) fun bare => ?_
  · have held := Growth.hold chain.index op isOpen inside (Option.isNone_iff_eq_none.mp vacant)
    exact .of_change held (.of_bind (resolveAll_does isOpen) fun _ _ _ => .of_pure _)
  · have holds : (s.stage chain.index).operation ≠ none := by simpa using full
    have bare : (s.stage chain.index).outputs = #[] := by simpa using bare
    exact .of_change (.append chain.index op isOpen holds tail bare) (.of_same rfl)

theorem feedAll_does {pipes : List Nat} (isOpen : s.completed = false) :
    Does Growth (feedAll pipes) s := by
  induction pipes generalizing s with
  | nil => exact .of_pure _
  | cons p rest ih => exact .of_step isOpen (feed_does isOpen) fun _ _ _ => ih

end Parts
end MediaGraph.Session
