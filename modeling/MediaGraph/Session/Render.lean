import MediaGraph.Session.Chain

/-! The graph as text.
Chains stand in the order of their roots between semicolons, the stages of a
chain between commas, and each stage shows its pipes in brackets around its
operation. Stages without an operation and chains without stages are left out. -/
namespace MediaGraph

structure Segment where
  inputs : List String
  operation : Operation
  outputs : List String
  deriving DecidableEq, Repr

def bracketed (name : String) : String := "[" ++ name ++ "]"

def Segment.text (segment : Segment) : String :=
  String.join (segment.inputs.map bracketed) ++ segment.operation.text ++
    String.join (segment.outputs.map bracketed)

namespace Session

def segment? (s : Session) (i : Nat) : Option Segment :=
  (s.operationAt i).map fun op =>
    { inputs := (s.inputPipes i).map fun p => (s.pipe p).name
      operation := op
      outputs := (s.stage i).outputs.toList.map fun p => (s.pipe p).name }

def segments (s : Session) (first : Nat) : List Segment := (s.sequence first).filterMap s.segment?

/-- The first stage of every chain, each once, in the order of the roots. -/
def heads (s : Session) : List Nat := (s.roots.toList.map s.head).eraseDups

def chains (s : Session) : List (List Segment) :=
  (s.heads.map s.segments).filter fun chain => !chain.isEmpty

def render (s : Session) : String :=
  ";".intercalate (s.chains.map fun chain => ",".intercalate (chain.map Segment.text))

end Session
end MediaGraph
