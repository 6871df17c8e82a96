import MediaGraph.Session.Perform

/-! Sessions as callers see them over time.
An account keeps the handles that a session gave away, and for every reader the
pipe that it was put on and whether and when it got a pipe. The session itself only
knows where a reader is now. -/
namespace MediaGraph

def Call.pipes {reply : Reply} : Call reply → List PipeId
  | .setMedia pipe _ => [pipe]
  | .rename pipe _ => [pipe]
  | .setHint pipe _ => [pipe]
  | .lookUp pipe => [pipe]
  | .countReaders pipe => [pipe]
  | .start inputs => inputs
  | .connect _ outputs => outputs
  | .apply _ inputs _ => inputs
  | .place inputs _ => inputs
  | .split pipe _ => [pipe]
  | .splitChain pipe _ => [pipe]
  | .discard pipe => [pipe]
  | .complete exports => exports.map (·.2)
  | _ => []

def Call.chains {reply : Reply} : Call reply → List ChainId
  | .extend chain _ => [chain]
  | .connect chain _ => [chain]
  | .fork chain _ => [chain]
  | .output chain _ => [chain]
  | .takeOutputs chain _ => [chain]
  | .iterate chain _ => [chain]
  | .link source target => [source,target]
  | .operationOf chain => [chain]
  | _ => []

def Call.operations {reply : Reply} : Call reply → List OperationId
  | .lookUpOperation op => [op]
  | .setArguments op _ => [op]
  | _ => []

def Reply.givenPipes : (reply : Reply) → reply.Value → List PipeId
  | .pipe, id => [id]
  | .pipes, ids => ids
  | .iteration, pulled => pulled.pipes
  | _, _ => []

def Reply.givenChains : (reply : Reply) → reply.Value → List ChainId
  | .chain, id => [id]
  | _, _ => []

def Reply.givenOperations : (reply : Reply) → reply.Value → List OperationId
  | .placed, id => id.toList
  | _, _ => []

namespace Session

def numbered (r : Nat) (pipes : List Nat) : List (Nat × Nat) :=
  (List.range' r pipes.length).zip pipes

/-- The readers that an export makes: one that leaves the graph, and before it one for
the operation that gives the pipe another name, if there has to be one. -/
def exportReaders (name : String) (p : Nat) (s : Session) : List (Nat × Nat) :=
  match exportTarget name p s with
  | .ok target t => (if target = p then [] else [(s.readers.size,p)]) ++ [(t.readers.size,target)]
  | .error _ _ => []

def exportsReaders : List (String × PipeId) → Session → List (Nat × Nat)
  | [], _ => []
  | (name,id) :: rest, s =>
    match exportPipe name id s with
    | .ok _ t => exportReaders name id.index s ++ exportsReaders rest t
    | .error _ _ => []

/-- The readers that take their pipes when a chain gets its next operation. -/
def waitingOn (s : Session) (i : Nat) : List Nat :=
  if (s.stage i).operation.isNone then (s.stage i).inputs else []

/-- The readers that were put on a pipe and have got a pipe, in their order. -/
def consumers (put : List (Nat × Nat)) (took : List Nat) (p : Nat) : List Nat :=
  took.filter fun r => (r,p) ∈ put

end Session

/-- The readers that a call makes, each with the pipe that it is put on; `s` and `t` are
the session before and after the call. -/
def Call.put (s t : Session) : {reply : Reply} → Call reply → reply.Value → List (Nat × Nat)
  | _, .start inputs, _ => Session.numbered s.readers.size (inputs.map PipeId.index)
  | _, .fork _ _, chain => Session.numbered s.readers.size (t.inputPipes chain.index)
  | _, .apply _ inputs _, _ => Session.numbered s.readers.size (inputs.map PipeId.index)
  | _, .place inputs _, _ => Session.numbered s.readers.size (inputs.map PipeId.index)
  | _, .split pipe _, _ => [(s.readers.size,pipe.index)]
  | _, .splitChain pipe _, _ => [(s.readers.size,pipe.index)]
  | _, .discard pipe, _ => [(s.readers.size,pipe.index)]
  | _, .complete exports, _ => Session.exportsReaders exports s
  | _, _, _ => []

/-- The readers that get a pipe in a call. A placeholder leaves its readers waiting
until its chain gets an operation; all other readers get a pipe at once. -/
def Call.took (s t : Session) {reply : Reply} (c : Call reply) (answer : reply.Value) : List Nat :=
  match c with
  | .start _ => []
  | .fork _ _ => []
  | .extend chain _ => s.waitingOn chain.index
  | c => (c.put s t answer).map (·.1)

structure Account where
  session : Session
  pipes : List PipeId
  chains : List ChainId
  operations : List OperationId
  put : List (Nat × Nat)
  /-- The readers that have got a pipe, in their order. -/
  took : List Nat

namespace Account

def new (serial : Nat) (catalog : Catalog) : Account := ⟨.new serial catalog,[],[],[],[],[]⟩

def Knows {reply : Reply} (a : Account) (c : Call reply) : Prop :=
  (∀ id ∈ c.pipes, id ∈ a.pipes) ∧ (∀ id ∈ c.chains, id ∈ a.chains) ∧
    ∀ id ∈ c.operations, id ∈ a.operations

def after {reply : Reply} (a : Account) (c : Call reply) (answer : reply.Value) (t : Session) :
    Account where
  session := t
  pipes := a.pipes ++ reply.givenPipes answer
  chains := a.chains ++ reply.givenChains answer
  operations := a.operations ++ reply.givenOperations answer
  put := a.put ++ c.put a.session t answer
  took := a.took ++ c.took a.session t answer

/-- The accounts of sessions whose calls all succeeded and named only what they were
given before. Entry points and concatenations are made of such calls. -/
inductive Reached (catalog : Catalog) : Account → Prop
  | new (serial) : Reached catalog (.new serial catalog)
  | call {a reply} (c : Call reply) (answer t) (before : Reached catalog a) (known : a.Knows c)
      (answered : Session.perform c a.session = .ok answer t) : Reached catalog (a.after c answer t)

inductive Follows : Account → Plan → ChainId → Account → Prop
  | finish (a chain) : Follows a (.finish (.ok chain)) chain a
  | call {a reply} (c : Call reply) (next answer t chain b) (known : a.Knows c)
      (answered : Session.perform c a.session = .ok answer t)
      (rest : Follows (a.after c answer t) (next (.ok answer)) chain b) :
      Follows a (.call c next) chain b

end Account
end MediaGraph
