import MediaGraph.Handle
import MediaGraph.Operation
import MediaGraph.Pipe

/-! The calls of a session, as data.
Each call says what it is answered with. A plan is a program over calls, and an
entry point is a plan that builds a chain on given pipes. -/
namespace MediaGraph

structure Iteration where
  pipes : List PipeId
  ended : Bool
  failure : Option GraphError

inductive Reply where
  | done
  | pipe
  | pipes
  | chain
  | iteration
  | operation
  | placed
  | look
  | count

def Reply.Value : Reply → Type
  | done => Unit
  | pipe => PipeId
  | pipes => List PipeId
  | chain => ChainId
  | iteration => Iteration
  | operation => Operation
  | placed => Option OperationId
  | look => Pipe
  | count => Nat

inductive Call : Reply → Type where
  | newPipe : Call .pipe
  | namedPipe (name : String) : Call .pipe
  /-- The pipe of an input stream, the same one for the same specifier. -/
  | inputStream (spec : String) : Call .pipe
  | setMedia (pipe : PipeId) (media : Media) : Call .done
  | rename (pipe : PipeId) (name : String) : Call .done
  | setHint (pipe : PipeId) (hint : String) : Call .done
  | lookUp (pipe : PipeId) : Call .look
  | countReaders (pipe : PipeId) : Call .count
  | start (inputs : List PipeId) : Call .chain
  | extend (chain : ChainId) (op : Operation) : Call .chain
  | connect (chain : ChainId) (outputs : List PipeId) : Call .done
  | fork (chain : ChainId) (count : Nat) : Call .chain
  | output (chain : ChainId) (index : Nat) : Call .pipe
  | takeOutputs (chain : ChainId) (count : Nat) : Call .pipes
  | iterate (chain : ChainId) (limit : Option Nat) : Call .iteration
  | link (source target : ChainId) : Call .done
  | operationOf (chain : ChainId) : Call .placed
  | lookUpOperation (op : OperationId) : Call .operation
  | setArguments (op : OperationId) (args : List Argument) : Call .done
  | filter (name : String) : Call .operation
  | apply (name : String) (inputs : List PipeId) (args : List Argument) : Call .chain
  | place (inputs : List PipeId) (op : Operation) : Call .chain
  | split (pipe : PipeId) (count : Nat) : Call .pipes
  | splitChain (pipe : PipeId) (count : Nat) : Call .chain
  | discard (pipe : PipeId) : Call .chain
  | complete (exports : List (String × PipeId)) : Call .done

/-- Calls one after the other, each chosen by the answers so far. -/
inductive Plan where
  | finish (result : Except GraphError ChainId)
  | call {reply : Reply} (c : Call reply) (next : Except GraphError reply.Value → Plan)

namespace Plan

def fail (e : GraphError) : Plan := finish (.error e)

def andThen {reply : Reply} (c : Call reply) (next : reply.Value → Plan) : Plan :=
  call c fun
    | .ok v => next v
    | .error e => fail e

def ofCall (c : Call .chain) : Plan := call c finish

def ofOperations (inputs : List PipeId) (ops : List Operation) : Plan :=
  andThen (.start inputs) fun chain => go chain ops
where
  go : ChainId → List Operation → Plan
    | chain, [] => finish (.ok chain)
    | chain, op :: rest => andThen (.extend chain op) fun next => go next rest

end Plan

abbrev EntryPoint := List PipeId → List Argument → Plan

end MediaGraph
