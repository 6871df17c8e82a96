import MediaGraph.Session.FanOut

/-! Building chains.
A chain starts as a placeholder on its inputs. Its first operation makes it read
them; each further operation is a stage of its own behind the last. -/
namespace MediaGraph.Session

def addReaders (stage : Nat) : List Nat → Session → Session
  | [], s => s
  | p :: rest, s => addReaders stage rest (s.addReader p (.stage stage))

def addChain (pipes : List Nat) (s : Session) : Session :=
  let stage := s.stages.size
  let r := s.readers.size
  s.addStage .empty
    |>.addReaders stage pipes
    |>.modifyStage stage (fun node => { node with inputs := List.range' r pipes.length })
    |>.addRoot stage

def startOn (pipes : List Nat) : Build ChainId := do
  let stage := (← get).stages.size
  modify (addChain pipes)
  chainId stage

def start (inputs : List PipeId) : Build ChainId := do
  requireOpen "start"
  startOn (← inputs.mapM pipeIndex)

/-- Gives a placeholder its operation, or appends a stage that holds it. The
answer is the stage to go on from. -/
def extend (chain : ChainId) (op : Operation) : Build ChainId := do
  requireOpen "extend"
  let i ← stageIndex chain
  requireTail i
  let s ← get
  let stage := s.stage i
  let o := s.operations.size
  if stage.operation.isNone then
    modify fun s => s.addOperation op |>.modifyStage i fun stage => { stage with operation := some o }
    resolveAll stage.inputs
    return chain
  else if !stage.outputs.isEmpty then
    throw (.structural (.extendConnected (s.describe i)))
  else
    let next := s.stages.size
    modify fun s => s.addOperation op
      |>.addStage { Stage.empty with operation := some o, prev := some i }
      |>.modifyStage i fun stage => { stage with next := some next }
    chainId next

def feedAll : List Nat → Build Unit
  | [] => return
  | p :: rest => do
    updatePipe p Pipe.feed
    feedAll rest

def connect (chain : ChainId) (outputs : List PipeId) : Build Unit := do
  requireOpen "connect"
  let i ← stageIndex chain
  let s ← get
  if (s.stage i).operation.isNone then throw (.structural (.connectEmpty (s.describe i)))
  requireTail i
  if !(s.stage i).outputs.isEmpty then throw (.binding (.alreadyConnected (s.describe i)))
  let pipes ← outputs.mapM pipeIndex
  feedAll pipes
  modify (modifyStage i fun stage => { stage with outputs := pipes.toArray })

/-- A new placeholder on the first inputs of a placeholder, or on the first
outputs of an operation. -/
def fork (chain : ChainId) (count : Nat) : Build ChainId := do
  requireOpen "fork"
  let i ← stageIndex chain
  requireTail i
  let s ← get
  if (s.stage i).operation.isNone then
    let inputs := s.inputPipes i
    if count > inputs.length then
      throw (.structural (.forkTooMany count (s.describe i) inputs.length))
    startOn (inputs.take count)
  else
    start (← takeOutputs chain count)

def headWithin (s : Session) : Nat → Nat → Nat
  | 0, i => i
  | fuel + 1, i =>
    match (s.stage i).prev with
    | some before => headWithin s fuel before
    | none => i

def sequenceWithin (s : Session) : Nat → Nat → List Nat
  | 0, i => [i]
  | fuel + 1, i =>
    match (s.stage i).next with
    | some after => i :: sequenceWithin s fuel after
    | none => [i]

def head (s : Session) (i : Nat) : Nat := s.headWithin s.stages.size i

def sequence (s : Session) (i : Nat) : List Nat := s.sequenceWithin s.stages.size i

/-- Puts the whole chain that holds `target` behind `source`. -/
def link (source target : ChainId) : Build Unit := do
  requireOpen "link"
  let a ← stageIndex source
  let b ← stageIndex target
  let s ← get
  if (s.stage a).operation.isNone then throw (.structural (.linkEmpty (s.describe a)))
  requireTail a
  if !(s.stage a).outputs.isEmpty then throw (.structural (.linkConnected (s.describe a)))
  let first := s.head b
  if (s.sequence first).contains a then
    throw (.structural (.cycle (s.describe a) (s.describe b)))
  modify fun s => s
    |>.modifyStage a (fun stage => { stage with next := some first })
    |>.modifyStage first (fun stage => { stage with prev := some a })
    |> fun s => { s with roots := s.roots.filter (· != first) }

end MediaGraph.Session
