import MediaGraph.Argument.Basic
import MediaGraph.Error
import MediaGraph.Json.Print

/-! Arguments in documents.
A text, a number or a truth value is a scalar, an array a list of scalars, and an
object has a keyed value in each member. -/
namespace MediaGraph.Argument

def scalarText : Json → Except ScriptFault String
  | .text s => .ok s
  | .number n => .ok n.text
  | .bool b => .ok (if b then "true" else "false")
  | other => .error (.notScalar other.compact)

/-- The value of a member: a scalar, or the path of a file under the key `file`. -/
def keyedValue (key : String) : Json → Except ScriptFault ArgumentValue
  | .object [("file", path)] => (scalarText path).map .file
  | .object _ => .error (.badKeyed key)
  | v => (scalarText v).map .text

def ofJson : Json → Except ScriptFault Argument
  | .array items => (items.mapM scalarText).map .list
  | .object members =>
    (members.mapM fun m => (keyedValue m.1 m.2).map fun v => (m.1, v)).map .keyed
  | v => (scalarText v).map .scalar

end MediaGraph.Argument
