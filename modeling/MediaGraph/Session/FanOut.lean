import MediaGraph.Session.Outputs

/-! Readers take their pipes here.
A pipe that is not shared feeds one reader. When a second one comes, a split
operation is put behind the pipe, once: it reads the pipe, the reader that had
it moves to the first output of the split, and every further reader gets the
next output. The argument of the split is the number of its outputs. -/
namespace MediaGraph.Session

def markResolved (r : Nat) (s : Session) : Session :=
  s.modifyReader r fun reader => { reader with resolved := true }

def swapNames (a b : Nat) (s : Session) : Session :=
  let first := s.pipe a
  let second := s.pipe b
  (s.modifyPipe a fun p => { p with name := second.name, fixed := second.fixed })
    |>.modifyPipe b fun p => { p with name := first.name, fixed := first.fixed }

/-- Points a reader at another pipe. An export takes its name along. -/
def rebind (r target : Nat) (s : Session) : Session :=
  let reader := s.reader r
  let s := s.modifyPipe reader.pipe fun p => { p with readers := p.readers.filter (· != r) }
  let s := s.modifyPipe target fun p => { p with readers := p.readers ++ [r] }
  let s := s.modifyReader r fun reader => { reader with pipe := target }
  if reader.owner = .exported then s.swapNames reader.pipe target else s

def nextBranch (splitter : Nat) : Build Nat := do
  let s ← get
  let n := (s.stage splitter).outputs.size
  match ← outputAt splitter n with
  | none => throw (.structural (.outOfOutputs ((← get).describe splitter)))
  | some out =>
    match (s.stage splitter).operation with
    | some op => modify (putArguments op [.ofNat (n + 1)])
    | none => pure ()
    let s ← get
    let media := ((s.inputPipes splitter).head?.map fun source => (s.pipe source).media)
    updatePipe out fun p => p.mark (media.getD .unknown)
    updatePipe out Pipe.take
    return out

def moveReaders (splitter : Nat) : List Nat → Build Unit
  | [] => return
  | r :: rest => do
    let out ← nextBranch splitter
    modify (rebind r out)
    moveReaders splitter rest

/-- The resolved readers of a pipe other than those on the input of its split. -/
def directReaders (s : Session) (p splitter : Nat) : List Nat :=
  (s.pipe p).readers.filter fun r =>
    (s.reader r).resolved && (s.reader r).pipe == p && (s.reader r).owner != .stage splitter

def insertSplitter (p : Nat) : Build Nat := do
  let s ← get
  let pipe := s.pipe p
  match Helper.split.filter pipe.media pipe.describe with
  | .error e => throw e
  | .ok name =>
    let splitter := s.stages.size
    let r := s.readers.size
    let op := s.operations.size
    modify fun s => s
      |>.addStage .empty
      |>.addReader p (.stage splitter)
      |>.markResolved r
      |>.addOperation ((Operation.named name).withArguments [.ofNat 0])
      |>.modifyStage splitter (fun stage => { stage with inputs := [r], operation := some op })
      |>.addRoot splitter
      |>.modifyPipe p (fun pipe => { pipe with splitter := some splitter })
    moveReaders splitter ((← get).directReaders p splitter)
    return splitter

/-- An output of the split behind a pipe, which is put there if it is missing. -/
def branch (p : Nat) : Build Nat := do
  match ((← get).pipe p).splitter with
  | some splitter => nextBranch splitter
  | none => nextBranch (← insertSplitter p)

def resolve (r : Nat) : Build Unit := do
  let s ← get
  let p := (s.reader r).pipe
  if (s.pipe p).shared || !(s.pipe p).taken then
    updatePipe p Pipe.take
    modify (markResolved r)
  else
    let out ← branch p
    modify (markResolved r)
    modify (rebind r out)

def resolveAll : List Nat → Build Unit
  | [] => return
  | r :: rest => do
    resolve r
    resolveAll rest

end MediaGraph.Session
