import MediaGraph.Catalog.Basic

/-! The state of one graph under construction.
Pipes, readers, operations and stages are kept in tables that only grow, and
point at each other by index. A chain is a run of stages joined by `next` and
`prev`; its first stage has the inputs and its last one the outputs. -/
namespace MediaGraph

inductive Owner where
  | stage (index : Nat)
  | exported
  deriving DecidableEq, Repr

structure Reader where
  pipe : Nat
  owner : Owner
  resolved : Bool
  deriving DecidableEq, Repr

/-- One segment of a chain; without an operation it is a placeholder. -/
structure Stage where
  operation : Option Nat
  inputs : List Nat
  outputs : Array Nat
  prev : Option Nat
  next : Option Nat
  deriving DecidableEq, Repr

def Stage.empty : Stage := ⟨none, [], #[], none, none⟩

structure Session where
  serial : Nat
  catalog : Catalog
  pipes : Array Pipe
  readers : Array Reader
  operations : Array Operation
  stages : Array Stage
  roots : Array Nat
  streams : List (String × Nat)
  counter : Nat
  completed : Bool

/-- A call that may fail. What it did before it failed stays done. -/
abbrev Build := EStateM GraphError Session

namespace Session

def new (serial : Nat) (catalog : Catalog) : Session :=
  ⟨serial, catalog, #[], #[], #[], #[], #[], [], 0, false⟩

def pipe (s : Session) (i : Nat) : Pipe := (s.pipes[i]?).getD (.anonymous "")

def reader (s : Session) (i : Nat) : Reader := (s.readers[i]?).getD ⟨0, .exported, false⟩

def operation (s : Session) (i : Nat) : Operation := (s.operations[i]?).getD (.named "")

def stage (s : Session) (i : Nat) : Stage := (s.stages[i]?).getD .empty

def operationAt (s : Session) (i : Nat) : Option Operation := (s.stage i).operation.map s.operation

def inputPipes (s : Session) (i : Nat) : List Nat := (s.stage i).inputs.map fun r => (s.reader r).pipe

def describe (s : Session) (i : Nat) : String :=
  match s.operationAt i with
  | some op => s!"chain '{op.target}'"
  | none => "empty chain on " ++ String.join ((s.inputPipes i).map fun p => (s.pipe p).label)

def modifyPipe (i : Nat) (f : Pipe → Pipe) (s : Session) : Session :=
  { s with pipes := s.pipes.modify i f }

def modifyReader (i : Nat) (f : Reader → Reader) (s : Session) : Session :=
  { s with readers := s.readers.modify i f }

def modifyStage (i : Nat) (f : Stage → Stage) (s : Session) : Session :=
  { s with stages := s.stages.modify i f }

def addPipe (p : Pipe) (s : Session) : Session := { s with pipes := s.pipes.push p }

def addOperation (op : Operation) (s : Session) : Session :=
  { s with operations := s.operations.push op }

def addStage (stage : Stage) (s : Session) : Session := { s with stages := s.stages.push stage }

def addRoot (i : Nat) (s : Session) : Session := { s with roots := s.roots.push i }

/-- Adds a reader of a pipe; a pipe that is not shared keeps track of it. -/
def addReader (pipe : Nat) (owner : Owner) (s : Session) : Session :=
  let r := s.readers.size
  let s := { s with readers := s.readers.push ⟨pipe, owner, false⟩ }
  if (s.pipe pipe).shared then s
  else s.modifyPipe pipe fun p => { p with readers := p.readers ++ [r] }

def freshName (s : Session) : String := "_" ++ toString s.counter

def addAnonymous (f : Pipe → Pipe) (s : Session) : Session :=
  { s with pipes := s.pipes.push (f (.anonymous s.freshName)), counter := s.counter + 1 }

def putArguments (op : Nat) (args : List Argument) (s : Session) : Session :=
  { s with operations := s.operations.modify op fun o => o.withArguments args }

/-! Checks. -/

def requireOpen (call : String) : Build Unit := do
  if (← get).completed then throw (.completed call)

def pipeIndex (id : PipeId) : Build Nat := do
  let s ← get
  if id.session = s.serial && id.index < s.pipes.size then return id.index
  else throw (.binding (.foreign .pipe id.index))

def stageIndex (id : ChainId) : Build Nat := do
  let s ← get
  if id.session = s.serial && id.index < s.stages.size then return id.index
  else throw (.binding (.foreign .chain id.index))

def operationIndex (id : OperationId) : Build Nat := do
  let s ← get
  if id.session = s.serial && id.index < s.operations.size then return id.index
  else throw (.binding (.foreign .operation id.index))

def operationFor (s : Session) (id : OperationId) : Except GraphError Operation :=
  if id.session = s.serial && id.index < s.operations.size then .ok (s.operation id.index)
  else .error (.binding (.foreign .operation id.index))

/-- Only the last stage of a chain can be gone on from. -/
def requireTail (i : Nat) : Build Unit := do
  let s ← get
  if (s.stage i).next.isSome then throw (.structural (.hasSuccessor (s.describe i)))

def pipeId (i : Nat) : Build PipeId := return ⟨(← get).serial, i⟩

def chainId (i : Nat) : Build ChainId := return ⟨(← get).serial, i⟩

def updatePipe (i : Nat) (f : Pipe → Except GraphError Pipe) : Build Unit := do
  match f ((← get).pipe i) with
  | .ok p => modify (modifyPipe i fun _ => p)
  | .error e => throw e

end Session
end MediaGraph
