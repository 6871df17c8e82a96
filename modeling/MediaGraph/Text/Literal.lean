import MediaGraph.Text.Shape

/-! Texts between quotation marks, as messages cite them.
A character that would not show is written by its number. -/
namespace MediaGraph.Text

def hexDigits (n : Nat) : List Char := Nat.toDigits 16 n

/-- One character between quotation marks `mark`: the usual controls and the
mark itself behind a backslash, and a shapeless character by its number. -/
def citeChar (mark c : Char) : List Char :=
  if c = '\x00' then ['\\', '0']
  else if c = '\t' then ['\\', 't']
  else if c = '\r' then ['\\', 'r']
  else if c = '\n' then ['\\', 'n']
  else if c = '\\' || c = mark then ['\\', c]
  else if isShapeless c then ['\\', 'u', '\x7b'] ++ hexDigits c.toNat ++ ['\x7d']
  else [c]

def citeWith (mark : Char) (s : List Char) : List Char :=
  mark :: s.flatMap (citeChar mark) ++ [mark]

def cite (s : String) : String := String.ofList (citeWith '"' s.toList)

def citeMark (c : Char) : String := String.ofList (citeWith '\'' [c])

end MediaGraph.Text
