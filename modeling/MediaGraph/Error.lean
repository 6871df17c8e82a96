import MediaGraph.Media
import MediaGraph.Text.Literal

/-! What can go wrong while a graph is built, and the messages.
Pipes and chains are named in messages as their descriptions name them. -/
namespace MediaGraph

inductive HandleKind where
  | pipe
  | chain
  | operation
  deriving DecidableEq, Repr

def HandleKind.name : HandleKind → String
  | pipe => "pipe"
  | chain => "chain"
  | operation => "operation"

/-- A side of a pipe is taken, or a handle comes from elsewhere. -/
inductive BindingFault where
  | foreign (kind : HandleKind) (index : Nat)
  | alreadyFed (pipe : String)
  | alreadyRead (pipe : String)
  | alreadyConnected (chain : String)
  | neverRead (pipe : String)
  | neverFed (pipe : String)
  deriving DecidableEq, Repr

def BindingFault.message : BindingFault → String
  | foreign kind index => s!"{kind.name} #{index} was not created by this session"
  | alreadyFed pipe => s!"pipe {pipe} is already fed by an operation output"
  | alreadyRead pipe => s!"pipe {pipe} is already read by an operation input"
  | alreadyConnected chain => s!"{chain} already has connected outputs"
  | neverRead pipe =>
    s!"pipe {pipe} is not bound to any input: nothing reads it; " ++
      "route it somewhere, export it or discard it"
  | neverFed pipe => s!"pipe {pipe} is not bound to any output: nothing feeds it"

/-- A call does not fit the shape that a chain or a builder has by then. -/
inductive ShapeFault where
  | extendConnected (chain : String)
  | connectEmpty (chain : String)
  | forkTooMany (wanted : Nat) (chain : String) (inputs : Nat)
  | noInput (chain : String) (index : Nat)
  | linkEmpty (chain : String)
  | linkConnected (chain : String)
  | cycle (source target : String)
  | hasSuccessor (chain : String)
  | outOfOutputs (chain : String)
  | oneInput (entry : String) (got : Nat)
  | noInterval (command : String)
  | emptyStream
  | streamLength (got expected : Nat)
  | emptySegment
  | segmentWidth (got expected : Nat)
  | nothingToConcat
  | concatFinished
  deriving DecidableEq, Repr

def ShapeFault.message : ShapeFault → String
  | extendConnected chain => s!"{chain} already has outputs and cannot be extended"
  | connectEmpty chain => s!"cannot connect outputs to {chain}"
  | forkTooMany wanted chain inputs =>
    s!"cannot fork {wanted} inputs from {chain} with {inputs} inputs"
  | noInput chain index => s!"{chain} has no input {index}"
  | linkEmpty chain => s!"cannot link from {chain}"
  | linkConnected chain => s!"{chain} already has outputs and cannot be linked"
  | cycle source target => s!"linking {source} to {target} would create a cycle"
  | hasSuccessor chain => s!"{chain} is already linked to a successor"
  | outOfOutputs chain => s!"{chain} ran out of outputs"
  | oneInput entry got => s!"{entry} takes exactly one input, got {got}"
  | noInterval command =>
    s!"command {command} has no interval; call at() or between() first"
  | emptyStream => "concat stream needs at least one segment"
  | streamLength got expected => s!"concat stream has {got} segments, expected {expected}"
  | emptySegment => "concat segment needs at least one stream"
  | segmentWidth got expected => s!"concat segment has {got} streams, expected {expected}"
  | nothingToConcat => "concat needs at least one stream with one segment"
  | concatFinished => "concat was already finalized"

inductive NamingFault where
  | mediaConflict (pipe : String) (current wanted : Media)
  | fixedName (pipe name : String)
  | sameName (name first second : String)
  deriving DecidableEq, Repr

def NamingFault.message : NamingFault → String
  | mediaConflict pipe current wanted =>
    s!"pipe {pipe} is {current.name} and cannot become {wanted.name}"
  | fixedName pipe name =>
    s!"pipe {pipe} already has a fixed name; cannot rename it to [{name}]"
  | sameName name first second => s!"two pipes are named [{name}] ({first} and {second})"

inductive MappingFault where
  | unknownMedia (sort subject : String)
  | noEquivalent (sort : String) (media : Media) (subject : String)
  | unknownStream (pipe : String)
  | noConcat (media : Media)
  deriving DecidableEq, Repr

def MappingFault.message : MappingFault → String
  | unknownMedia sort subject =>
    s!"no {sort} operation for {subject}: its media type is unknown; " ++
      "annotate it with an explicit media type (video or audio)"
  | noEquivalent sort media subject =>
    s!"no {sort} equivalent exists for {media.name} pipes ({subject})"
  | unknownStream pipe =>
    s!"concat stream starting at {pipe} has unknown media type; " ++
      "annotate it with an explicit media type (video or audio)"
  | noConcat media => s!"no concat equivalent exists for {media.name} streams"

inductive ScriptFault where
  | badCount (text : String)
  | badCountArguments
  | duplicateAlias (name : String)
  | unknownAlias (name : String)
  | noFilters
  | entryWithId (entry : String)
  | nameAndCommands
  | nameOrCommands
  | fewOutputs (outputs aliases : Nat)
  | notScalar (value : String)
  | badKeyed (key : String)
  | step (index : Nat) (fault : ScriptFault)
  deriving DecidableEq, Repr

def ScriptFault.message : ScriptFault → String
  | badCount text => s!"split count must be a number, got {Text.cite text}"
  | badCountArguments => "split takes a single count argument"
  | duplicateAlias name => s!"alias {name} is defined twice"
  | unknownAlias name => s!"unknown alias {name}"
  | noFilters => "chain step has no filters"
  | entryWithId entry => s!"{entry} is an entry point and cannot carry an id"
  | nameAndCommands => "a filter has either a name or commands, not both"
  | nameOrCommands => "a filter needs a name or commands"
  | fewOutputs outputs aliases =>
    s!"concat has {outputs} outputs but {aliases} aliases were given"
  | notScalar value => s!"expected a string, number or bool, got {value}"
  | badKeyed key => s!"argument {key} must be a scalar or \x7b\"file\": path\x7d"
  | step index fault => s!"step {index}: " ++ fault.message

/-- Iteration without a count stops here. -/
def outputLimit : Nat := 10000

inductive GraphError where
  | binding (fault : BindingFault)
  | structural (fault : ShapeFault)
  | naming (fault : NamingFault)
  | unboundedIteration (chain : String)
  | missingMapping (fault : MappingFault)
  | arity (operation : String) (count index : Nat)
  | unknownFilter (name : String)
  | completed (call : String)
  | script (fault : ScriptFault)
  deriving DecidableEq, Repr

def GraphError.message : GraphError → String
  | binding fault => "binding error: " ++ fault.message
  | structural fault => "structural error: " ++ fault.message
  | naming fault => "naming error: " ++ fault.message
  | unboundedIteration chain =>
    s!"unbounded iteration: {chain} was asked for more than {outputLimit} outputs; " ++
      "request an explicit count instead of unpacking everything"
  | missingMapping fault => "missing mapping: " ++ fault.message
  | arity operation count index =>
    s!"operation {operation} has {count} output pad(s); output {index} does not exist"
  | unknownFilter name => "unknown filter: " ++ name
  | completed call => s!"graph already completed; {call} is not allowed anymore"
  | script fault => "script error: " ++ fault.message

def GraphError.atStep (index : Nat) : GraphError → GraphError
  | script fault => script (.step index fault)
  | other => other

end MediaGraph
