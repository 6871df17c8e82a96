import MediaGraph.Argument.Escape

/-! Arguments of an operation and their one encoded text. -/
namespace MediaGraph

inductive ArgumentValue where
  | text (value : String)
  | file (path : String)
  deriving DecidableEq, Repr

inductive Argument where
  | scalar (value : String)
  | list (items : List String)
  | keyed (pairs : List (String × ArgumentValue))
  deriving DecidableEq, Repr

namespace Argument

def escapeText (s : String) : String := String.ofList (escape s.toList)

def quoteText (s : String) : String := String.ofList (quote s.toList)

def keyedPart (pair : String × ArgumentValue) : List Char :=
  match pair.2 with
  | .text value => pair.1.toList ++ '=' :: escape value.toList
  | .file path => pair.1.toList ++ '=' :: '/' :: escape path.toList

def parts : Argument → List (List Char)
  | scalar value => [escape value.toList]
  | list items => items.map fun item => escape item.toList
  | keyed pairs => pairs.map keyedPart

/-- The argument text of an operation. A single scalar is taken as a text that
is encoded already. -/
def encode : List Argument → String
  | [scalar raw] => raw
  | args => String.ofList (Text.join [':'] (args.flatMap parts))

def ofNat (n : Nat) : Argument := scalar (toString n)

end Argument
end MediaGraph
