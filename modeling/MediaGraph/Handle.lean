/-! Handles.
A handle names a place in the tables of one session; a session refuses the
handles of another. -/
namespace MediaGraph

structure PipeId where
  session : Nat
  index : Nat
  deriving DecidableEq, Repr

structure ChainId where
  session : Nat
  index : Nat
  deriving DecidableEq, Repr

structure OperationId where
  session : Nat
  index : Nat
  deriving DecidableEq, Repr

end MediaGraph
