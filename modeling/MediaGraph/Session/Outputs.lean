import MediaGraph.Session.Basic

/-! The pipes on the output pads of a chain.
They are made when they are asked for, in order and all up to the one asked for.
A stage without an operation answers with its inputs instead. -/
namespace MediaGraph.Session

def addOutput (i : Nat) (op : Operation) (s : Session) : Session :=
  let n := (s.stage i).outputs.size
  let p := s.pipes.size
  (s.addAnonymous fun pipe =>
      { pipe with hint := some s!"{op.name}.output.{n}", media := op.outputs.media n, fed := true })
    |>.modifyStage i fun stage => { stage with outputs := stage.outputs.push p }

def addOutputs (i : Nat) (op : Operation) : Nat → Session → Session
  | 0, s => s
  | count + 1, s => addOutputs i op count (s.addOutput i op)

/-- The pipe on output pad `n` of stage `i`, or `none` where the operation has no
such pad. An output that is there already is answered whatever the state. -/
def outputAt (i n : Nat) : Build (Option Nat) := do
  let s ← get
  match s.operationAt i with
  | none => return (s.inputPipes i)[n]?
  | some op =>
    match (s.stage i).outputs[n]? with
    | some p => return some p
    | none =>
      requireOpen "outputs"
      requireTail i
      if op.outputs.lacks n then return none
      if n ≥ outputLimit then throw (.unboundedIteration (s.describe i))
      modify (addOutputs i op (n + 1 - (s.stage i).outputs.size))
      return ((← get).stage i).outputs[n]?

def outputIndex (i n : Nat) : Build Nat := do
  match ← outputAt i n with
  | some p => return p
  | none =>
    let s ← get
    match s.operationAt i with
    | some op => throw (.arity op.target (op.outputs.count.getD 0) n)
    | none => throw (.structural (.noInput (s.describe i) n))

def output (chain : ChainId) (n : Nat) : Build PipeId := do
  let i ← stageIndex chain
  pipeId (← outputIndex i n)

def outputsFrom (chain : ChainId) : Nat → Nat → Array PipeId → Build (Array PipeId)
  | _, 0, done => return done
  | n, count + 1, done => do
    let p ← output chain n
    outputsFrom chain (n + 1) count (done.push p)

def takeOutputs (chain : ChainId) (count : Nat) : Build (List PipeId) :=
  return (← outputsFrom chain 0 count #[]).toList

def pull (i : Nat) : Nat → Nat → Array PipeId → Build Iteration
  | _, 0, done => return ⟨done.toList, false, none⟩
  | n, pulls + 1, done => do
    match ← tryCatch (Except.ok <$> outputAt i n) fun e => return .error e with
    | .ok (some p) => pull i (n + 1) pulls (done.push (← pipeId p))
    | .ok none => return ⟨done.toList, true, none⟩
    | .error e => return ⟨done.toList, true, some e⟩

/-- Pulling ends at a pad that is not there, at a failure, or at the limit.
Without a limit it is enough to allow for one pull after every output that is
there or may still be made. -/
def iterate (chain : ChainId) (limit : Option Nat) : Build Iteration := do
  let i ← stageIndex chain
  let s ← get
  let stage := s.stage i
  let enough := max (max stage.inputs.length stage.outputs.size) outputLimit + 1
  pull i 0 (limit.getD enough) #[]

end MediaGraph.Session
