import MediaGraph.Session.Chain

/-! Chains by filter name.
The catalog says which media the inputs of a filter carry; they are marked with
it before the chain starts, so that a split behind one of them is of its kind. -/
namespace MediaGraph.Session

/-- Settles the media of a pipe. This is allowed on a completed graph too. -/
def setMedia (id : PipeId) (media : Media) : Build Unit := do
  let i ← pipeIndex id
  updatePipe i fun p => p.mark media

def filter (name : String) : Build Operation := do
  match (← get).catalog.get? name with
  | some spec => return (Operation.named name).withOutputs spec.outputs
  | none => throw (.unknownFilter name)

def markInputs : List (PipeId × Media) → Build Unit
  | [] => return
  | (id, media) :: rest => do
    setMedia id media
    markInputs rest

/-- Starts a chain that holds `op`; its inputs are marked if the catalog knows a
filter of that name. -/
def place (inputs : List PipeId) (op : Operation) : Build ChainId := do
  requireOpen "place"
  match (← get).catalog.get? op.name with
  | some spec => markInputs (inputs.zip spec.inputs.declared)
  | none => pure ()
  let chain ← start inputs
  extend chain op

def apply (name : String) (inputs : List PipeId) (args : List Argument) : Build ChainId := do
  requireOpen "apply"
  let op ← filter name
  place inputs (op.withArguments args)

def helper (h : Helper) (p : Pipe) : Build String := do
  match h.filter p.media p.describe with
  | .ok name => return name
  | .error e => throw e

def splitChain (id : PipeId) (count : Nat) : Build ChainId := do
  requireOpen "split"
  let p := (← get).pipe (← pipeIndex id)
  let name ← helper .split p
  let op := (Operation.named name).withArguments [.ofNat count]
    |>.withOutputs (.fixed (List.replicate count p.media))
  let chain ← start [id]
  extend chain op

def split (id : PipeId) (count : Nat) : Build (List PipeId) := do
  let chain ← splitChain id count
  takeOutputs chain count

def discard (id : PipeId) : Build ChainId := do
  requireOpen "discard"
  let p := (← get).pipe (← pipeIndex id)
  let name ← helper .sink p
  let chain ← start [id]
  extend chain ((Operation.named name).withOutputs .none)

end MediaGraph.Session
