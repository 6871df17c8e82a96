import MediaGraph.Json.Value
import MediaGraph.Text.Blank
import MediaGraph.Text.Literal

/-! Writing JSON values, on one line or indented. -/
namespace MediaGraph.Json

def Number.text : Number → String
  | int n => toString n
  | real x => (Decimal.ofDouble x).document

/-- One character inside a text: short escapes where there are any, four digits
for the other controls below the space. -/
def escapeChar (c : Char) : List Char :=
  if c = '"' then ['\\', '"']
  else if c = '\\' then ['\\', '\\']
  else if c = '\x08' then ['\\', 'b']
  else if c = '\x0c' then ['\\', 'f']
  else if c = '\n' then ['\\', 'n']
  else if c = '\r' then ['\\', 'r']
  else if c = '\t' then ['\\', 't']
  else if c.toNat < 0x20 then
    let hex := Text.hexDigits c.toNat
    '\\' :: 'u' :: (List.replicate (4 - hex.length) '0' ++ hex)
  else [c]

def quoted (s : String) : List Char := '"' :: s.toList.flatMap escapeChar ++ ['"']

mutual

def compactChars : Json → List Char
  | .null => "null".toList
  | .bool b => (if b then "true" else "false").toList
  | .number n => n.text.toList
  | .text s => quoted s
  | .array items => '[' :: Text.join [','] (compactItems items) ++ [']']
  | .object members => '\x7b' :: Text.join [','] (compactMembers members) ++ ['\x7d']

def compactItems : List Json → List (List Char)
  | [] => []
  | v :: rest => compactChars v :: compactItems rest

def compactMembers : List (String × Json) → List (List Char)
  | [] => []
  | (k, v) :: rest => (quoted k ++ ':' :: compactChars v) :: compactMembers rest

end

def compact (v : Json) : String := String.ofList (compactChars v)

def margin (depth : Nat) : List Char := '\n' :: List.replicate (2 * depth) ' '

def block (depth : Nat) (first last : Char) (parts : List (List Char)) : List Char :=
  if parts.isEmpty then [first, last]
  else
    first :: margin (depth + 1) ++ Text.join (',' :: margin (depth + 1)) parts ++ margin depth ++
      [last]

mutual

def indentedChars : Nat → Json → List Char
  | depth, .array items => block depth '[' ']' (indentedItems (depth + 1) items)
  | depth, .object members => block depth '\x7b' '\x7d' (indentedMembers (depth + 1) members)
  | _, v => compactChars v

def indentedItems : Nat → List Json → List (List Char)
  | _, [] => []
  | depth, v :: rest => indentedChars depth v :: indentedItems depth rest

def indentedMembers : Nat → List (String × Json) → List (List Char)
  | _, [] => []
  | depth, (k, v) :: rest =>
    (quoted k ++ ':' :: ' ' :: indentedChars depth v) :: indentedMembers depth rest

end

def indented (v : Json) : String := String.ofList (indentedChars 0 v)

end MediaGraph.Json
