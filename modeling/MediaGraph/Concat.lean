import MediaGraph.Session.Perform

/-! Playing streams one after the other, several side by side.
Streams are columns and segments are rows. The pads of the filter number the
video streams first, segment by segment; the outputs are answered in the order
of the columns. -/
namespace MediaGraph

structure Concat where
  streams : List (List PipeId)
  /-- How many segments there are, once something was added. -/
  segments : Option Nat
  outputs : Option (List PipeId)
  deriving DecidableEq, Repr

/-- A call that adds to a concatenation. What it did before it failed stays done. -/
abbrev Assembly := EStateM GraphError Concat

namespace Concat

def empty : Concat := ⟨[], none, none⟩

def streamCount (c : Concat) : Nat := c.streams.length

def segmentCount (c : Concat) : Nat := c.segments.getD 0

def requireUnfinished : Assembly Unit := do
  if (← get).outputs.isSome then throw (.structural .concatFinished)

def putStream (pipes : List PipeId) : Assembly Unit := do
  requireUnfinished
  if pipes.isEmpty then throw (.structural .emptyStream)
  let c ← get
  if c.segments.any (· != pipes.length) then
    throw (.structural (.streamLength pipes.length c.segmentCount))
  modify fun c => { c with segments := some pipes.length }
  modify fun c => { c with streams := c.streams ++ [pipes] }

def putSegment (pipes : List PipeId) : Assembly Unit := do
  requireUnfinished
  if pipes.isEmpty then throw (.structural .emptySegment)
  let c ← get
  if c.streams.isEmpty then
    modify fun c => { c with streams := List.replicate pipes.length [] }
  else if pipes.length != c.streams.length then
    throw (.structural (.segmentWidth pipes.length c.streams.length))
  modify fun c => { c with streams := c.streams.zipWith (fun stream p => stream ++ [p]) pipes }
  modify fun c => { c with segments := some (c.segmentCount + 1) }

def after (c : Concat) (call : Assembly Unit) : Except GraphError Concat :=
  match call c with
  | .ok _ c => .ok c
  | .error e _ => .error e

def addStream (c : Concat) (pipes : List PipeId) : Except GraphError Concat :=
  c.after (putStream pipes)

def addSegment (c : Concat) (pipes : List PipeId) : Except GraphError Concat :=
  c.after (putSegment pipes)

def firstMedia : List PipeId → Build Media
  | [] => return .unknown
  | id :: rest => do
    let p ← Session.lookUp id
    if p.media = .unknown then firstMedia rest else return p.media

def markAll (media : Media) : List PipeId → Build Unit
  | [] => return
  | id :: rest => do
    Session.setMedia id media
    markAll media rest

def markStream (stream : List PipeId) : Build Media := do
  match ← firstMedia stream with
  | .unknown =>
    let first := (stream.head?.map PipeId.index).getD 0
    throw (.missingMapping (.unknownStream ((← get).pipe first).describe))
  | .video => markAll .video stream; return .video
  | .audio => markAll .audio stream; return .audio
  | other => throw (.missingMapping (.noConcat other))

def markStreams : List (List PipeId) → Build (List Media)
  | [] => return []
  | stream :: rest => do
    let media ← markStream stream
    return media :: (← markStreams rest)

/-- The streams in the order of the pads, by their numbers. -/
def padOrder (media : List Media) : List Nat :=
  let isVideo (s : Nat) : Bool := media[s]? = some .video
  let streams := List.range media.length
  streams.filter isVideo ++ streams.filter fun s => !isVideo s

def inputs (c : Concat) (order : List Nat) : List PipeId :=
  (List.range c.segmentCount).flatMap fun segment =>
    order.filterMap fun s => c.streams[s]?.bind (·[segment]?)

def operation (segments : Nat) (media : List Media) (order : List Nat) : Operation :=
  let videos := media.count .video
  let number (n : Nat) : ArgumentValue := .text (toString n)
  (Operation.named "concat").withArguments
      [.keyed [("n", number segments), ("v", number videos), ("a", number (media.length - videos))]]
    |>.withOutputs (.fixed (order.filterMap fun s => media[s]?))

def byStream (order : List Nat) (pads : List PipeId) : List PipeId :=
  (List.range order.length).filterMap fun s => pads[order.idxOf s]?

/-- Places the filter and answers one output for each stream. Asking again gives
the same answer. -/
def finalize (c : Concat) : Build (Concat × List PipeId) := do
  match c.outputs with
  | some outputs => return (c, outputs)
  | none =>
    if c.streams.isEmpty || c.segmentCount == 0 then throw (.structural .nothingToConcat)
    let media ← markStreams c.streams
    let order := padOrder media
    let chain ← Session.start (c.inputs order)
    let chain ← Session.extend chain (operation c.segmentCount media order)
    let pads ← Session.takeOutputs chain order.length
    let outputs := byStream order pads
    return ({ c with outputs := some outputs }, outputs)

end Concat
end MediaGraph
