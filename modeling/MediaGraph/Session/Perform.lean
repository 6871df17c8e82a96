import MediaGraph.Session.Export
import MediaGraph.Session.Render

/-! Carrying out calls and plans on a session. -/
namespace MediaGraph.Session

def newPipe : Build PipeId := do
  requireOpen "pipe"
  let i := (← get).pipes.size
  modify (addAnonymous id)
  pipeId i

def namedPipe (name : String) : Build PipeId := do
  requireOpen "pipe"
  let i := (← get).pipes.size
  modify (addPipe (.named name))
  pipeId i

/-- The shared pipe of an input stream, made at the first request. -/
def inputStream (spec : String) : Build PipeId := do
  requireOpen "input_stream"
  let s ← get
  match s.streams.lookup spec with
  | some i => pipeId i
  | none =>
    let i := s.pipes.size
    modify fun s => { s.addPipe (.ofStream spec) with streams := (spec, i) :: s.streams }
    pipeId i

def rename (id : PipeId) (name : String) : Build Unit := do
  requireOpen "rename"
  let i ← pipeIndex id
  updatePipe i fun p => p.rename name

def setHint (id : PipeId) (hint : String) : Build Unit := do
  let i ← pipeIndex id
  modify (modifyPipe i fun p => { p with hint := some hint })

def lookUp (id : PipeId) : Build Pipe := do
  let i ← pipeIndex id
  return (← get).pipe i

def countReaders (id : PipeId) : Build Nat := return (← lookUp id).readers.length

def lookUpOperation (id : OperationId) : Build Operation := do
  MonadExcept.ofExcept ((← get).operationFor id)

def setArguments (id : OperationId) (args : List Argument) : Build Unit := do
  requireOpen "set_args"
  let i ← operationIndex id
  modify (putArguments i args)

def operationOf (chain : ChainId) : Build (Option OperationId) := do
  let i ← stageIndex chain
  let s ← get
  return (s.stage i).operation.map fun o => ⟨s.serial, o⟩

def perform {reply : Reply} : Call reply → Build reply.Value
  | .newPipe => newPipe
  | .namedPipe name => namedPipe name
  | .inputStream spec => inputStream spec
  | .setMedia pipe media => setMedia pipe media
  | .rename pipe name => rename pipe name
  | .setHint pipe hint => setHint pipe hint
  | .lookUp pipe => lookUp pipe
  | .countReaders pipe => countReaders pipe
  | .start inputs => start inputs
  | .extend chain op => extend chain op
  | .connect chain outputs => connect chain outputs
  | .fork chain count => fork chain count
  | .output chain index => output chain index
  | .takeOutputs chain count => takeOutputs chain count
  | .iterate chain limit => iterate chain limit
  | .link source target => link source target
  | .operationOf chain => operationOf chain
  | .lookUpOperation op => lookUpOperation op
  | .setArguments op args => setArguments op args
  | .filter name => filter name
  | .apply name inputs args => apply name inputs args
  | .place inputs op => place inputs op
  | .split pipe count => split pipe count
  | .splitChain pipe count => splitChain pipe count
  | .discard pipe => discard pipe
  | .complete exports => complete exports

/-- A failed call does not end a plan by itself. -/
def follow : Plan → Build ChainId
  | .finish (.ok chain) => return chain
  | .finish (.error e) => throw e
  | .call c next => do
    let answer ← tryCatch (Except.ok <$> perform c) fun e => return .error e
    follow (next answer)

def invoke (name : String) (inputs : List PipeId) (args : List Argument) : Build ChainId := do
  requireOpen "invoke"
  match (← get).catalog.entry? name with
  | some entry => follow (entry inputs args)
  | none => apply name inputs args

end MediaGraph.Session
