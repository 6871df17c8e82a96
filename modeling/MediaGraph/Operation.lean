import MediaGraph.Argument.Basic
import MediaGraph.Error

/-! Operations, and the ones that the graph inserts by itself. -/
namespace MediaGraph

/-- One step of processing. The argument text is encoded and not quoted yet. -/
structure Operation where
  name : String
  id : Option String
  args : String
  outputs : Pads
  deriving DecidableEq, Repr

namespace Operation

def named (name : String) : Operation := ⟨name, none, "", .dynamic⟩

def withId (op : Operation) (id : String) : Operation := { op with id := some id }

def withArguments (op : Operation) (args : List Argument) : Operation :=
  { op with args := Argument.encode args }

def withOutputs (op : Operation) (outputs : Pads) : Operation := { op with outputs := outputs }

/-- The name and, after an at sign, the instance; commands are sent to it. -/
def target (op : Operation) : String :=
  match op.id with
  | some id => op.name ++ "@" ++ id
  | none => op.name

def text (op : Operation) : String :=
  if op.args.isEmpty then op.target
  else op.target ++ "=" ++ Argument.quoteText op.args

end Operation

inductive Helper where
  | split
  | passThrough
  | sink
  | commands
  deriving DecidableEq, Repr

def Helper.text : Helper → String
  | split => "fan-out"
  | passThrough => "pass-through"
  | sink => "sink"
  | commands => "command"

/-- The filter that does a helper's work on a kind of media; `subject` is what
needs it. Only video and audio have such filters. -/
def Helper.filter (helper : Helper) (media : Media) (subject : String) :
    Except GraphError String :=
  match helper, media with
  | helper, .unknown => .error (.missingMapping (.unknownMedia helper.text subject))
  | split, .video => .ok "split"
  | split, .audio => .ok "asplit"
  | passThrough, .video => .ok "null"
  | passThrough, .audio => .ok "anull"
  | sink, .video => .ok "nullsink"
  | sink, .audio => .ok "anullsink"
  | commands, .video => .ok "sendcmd"
  | commands, .audio => .ok "asendcmd"
  | helper, media => .error (.missingMapping (.noEquivalent helper.text media subject))

end MediaGraph
