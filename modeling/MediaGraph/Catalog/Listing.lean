import MediaGraph.Catalog.Basic
import MediaGraph.Text.Blank

/-! Tables of filters in text form.
A row has three flag columns, a name, the pads of both sides around an arrow, and
a description. Whatever stands before the first row is passed over, blank lines
are passed over everywhere, and after the first row every line has to be a row. -/
namespace MediaGraph.Catalog.Listing
open Text

/-- Why a text is no table of filters. Lines count from one. -/
inductive Fault where
  | notARow (line : Nat) (text : String)
  | badInputs (filter : String) (line : Nat) (mark : Char) (pads : String)
  | badOutputs (filter : String) (line : Nat) (mark : Char) (pads : String)
  | noRows
  deriving DecidableEq, Repr

def badMark (mark : Char) (pads : String) : String :=
  s!"unexpected pad marker {citeMark mark} in {cite pads}"

def Fault.chain : Fault → List String
  | notARow line text => [s!"filter list parse error at line {line}: cannot parse {cite text}"]
  | badInputs filter line mark pads =>
    [s!"bad input pads for {filter} at line {line}", badMark mark pads]
  | badOutputs filter line mark pads =>
    [s!"bad output pads for {filter} at line {line}", badMark mark pads]
  | noRows => ["filter list contained no filters"]

structure Row where
  name : List Char
  flags : FilterFlags
  inputs : List Char
  outputs : List Char
  description : List Char
  deriving DecidableEq, Repr

/-- A flag column holds its letter or a dot. -/
def flag? (letter c : Char) : Option Bool :=
  if c = letter then some true else if c = '.' then some false else none

def isPadMark (c : Char) : Bool := c = 'A' || c = 'V' || c = 'N' || c = '|'

def skipBlanks? : List Char → Option (List Char)
  | [] => none
  | c :: rest => if isBlank c then some (rest.dropWhile isBlank) else none

def padMarks? (s : List Char) : Option (List Char × List Char) :=
  match s.span isPadMark with
  | ([], _) => none
  | found => some found

def flags? : List Char → Option (FilterFlags × List Char)
  | t :: s :: c :: rest => do
    return (⟨← flag? 'T' t, ← flag? 'S' s, ← flag? 'C' c⟩, rest)
  | _ => none

def arrow? : List Char → Option (List Char)
  | '-' :: '>' :: rest => some rest
  | _ => none

def row? (line : List Char) : Option Row := do
  let (flags, rest) ← flags? (line.dropWhile isBlank)
  let rest ← skipBlanks? rest
  let (name, rest) := rest.span fun c => !isBlank c
  let rest ← skipBlanks? rest
  let (inputs, rest) ← padMarks? rest
  let rest ← arrow? rest
  let (outputs, rest) ← padMarks? rest
  return ⟨name, flags, inputs, outputs, trim rest⟩

def media : List Char → Except Char (List Media)
  | [] => .ok []
  | 'V' :: rest => (media rest).map (.video :: ·)
  | 'A' :: rest => (media rest).map (.audio :: ·)
  | mark :: _ => .error mark

/-- A single bar says that there are no pads, a single N that they vary. -/
def pads : List Char → Except Char Pads
  | ['|'] => .ok .none
  | ['N'] => .ok .dynamic
  | marks => (media marks).map .fixed

def Row.spec (row : Row) (line : Nat) : Except Fault FilterSpec := do
  let name := String.ofList row.name
  let inputs ← (pads row.inputs).mapError fun mark =>
    Fault.badInputs name line mark (String.ofList row.inputs)
  let outputs ← (pads row.outputs).mapError fun mark =>
    Fault.badOutputs name line mark (String.ofList row.outputs)
  return ⟨name, String.ofList row.description, inputs, outputs, row.flags⟩

/-- The filters of some lines, the first of which has the number `line`. `inside`
says that a row came before. -/
def rows (inside : Bool) (line : Nat) : List (List Char) → Except Fault (List FilterSpec)
  | [] => .ok []
  | text :: rest =>
    if text.all isBlank then rows inside (line + 1) rest
    else
      match row? text with
      | some row => do
        let spec ← row.spec line
        let specs ← rows true (line + 1) rest
        return spec :: specs
      | none =>
        if inside then .error (.notARow line (String.ofList text))
        else rows inside (line + 1) rest

def read (text : String) : Except Fault (List FilterSpec) := do
  match ← rows false 1 (lines text.toList) with
  | [] => .error .noRows
  | specs => .ok specs

end MediaGraph.Catalog.Listing
