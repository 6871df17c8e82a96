import MediaGraph.Json.Tree
import MediaGraph.Decimal.Layout

/-! JSON values.
An integer of 64 bits stays an integer and every other number is a real; a text
is made of whole characters; containers nest to a limited depth. -/
namespace MediaGraph

namespace Json

inductive Number where
  | int (n : Int)
  | real (x : Float)

end Json

/-- A value; an object keeps the order and the repetitions of its members. -/
inductive Json where
  | null
  | bool (b : Bool)
  | number (n : Json.Number)
  | text (s : String)
  | array (items : List Json)
  | object (members : List (String × Json))

namespace Json

inductive Fault where
  | malformed
  | tooDeep
  | outOfRange
  | brokenText
  | unexpected (wanted : String)
  | missing (field : String)
  | repeated (field : String)
  | surplus
  deriving DecidableEq, Repr

def Fault.message : Fault → String
  | malformed => "not a JSON text"
  | tooDeep => "nested too deeply"
  | outOfRange => "number out of range"
  | brokenText => "escape without its other half"
  | unexpected wanted => "expected " ++ wanted
  | missing field => "missing field " ++ field
  | repeated field => "repeated field " ++ field
  | surplus => "too many items"

def digit (c : Char) : Nat := c.toNat - 48

/-- Appends digits to a number for as long as it stays below 2^64; the count says
how many were taken. -/
def takeDigits (n : Nat) (taken : Nat) : List Char → Nat × Nat
  | [] => (n, taken)
  | c :: rest =>
    if n * 10 + digit c < UInt64.size then takeDigits (n * 10 + digit c) (taken + 1) rest else (n, taken)

def powerOfTen (n : Nat) : Float := Float.ofScientific 1 false n

def divideByTens (x : Float) (n : Nat) : Float :=
  if n ≤ 308 then x / powerOfTen n
  else if x == 0 then x
  else divideByTens (x / powerOfTen 308) (n - 308)
termination_by n

/-- The real `significand * 10^exponent`, by one multiplication or by divisions;
`none` if it is too large. -/
def scaled? (significand : Nat) (exponent : Int) : Option Float :=
  let x := Float.ofNat significand
  if exponent < 0 then some (divideByTens x exponent.natAbs)
  else if exponent.natAbs ≤ 308 then
    let y := x * powerOfTen exponent.natAbs
    if y.isInf then none else some y
  else if x == 0 then some x
  else none

def signedReal (negative : Bool) (x : Float) : Float := if negative then -x else x

def exponentLimit : Nat := 2147483647

def readExponent (digits : List Char) : Nat := digits.foldl (fun n c => n * 10 + digit c) 0

/-- The number behind its digits. The significand takes digits, first of the
whole part and then of the fraction, for as long as they fit 64 bits; a digit of
the whole part that does not fit raises the exponent instead. -/
def Numeral.value? (n : Numeral) : Option Number :=
  let (whole, taken) := takeDigits 0 0 n.whole
  let left := n.whole.length - taken
  if left = 0 && n.fraction.isEmpty && n.power.isNone then
    if !n.negative then some (.int whole)
    else if 0 < whole && whole ≤ Nat.pow 2 63 then some (.int (-whole))
    else some (.real (-(Float.ofNat whole)))
  else
    let (significand, places) := takeDigits whole 0 n.fraction
    let start : Int := (left : Int) - places
    match n.power with
    | none => (scaled? significand start).map fun x => .real (signedReal n.negative x)
    | some (down, digits) =>
      let power := readExponent digits
      if power > exponentLimit then
        if significand != 0 && !down then none else some (.real (signedReal n.negative 0))
      else
        let exponent := if down then start - power else start + power
        (scaled? significand exponent).map fun x => .real (signedReal n.negative x)

/-- The characters that pieces make up: two halves in a row are one character,
and a half on its own is none. -/
def assemble : List Piece → Option (List Char)
  | [] => some []
  | .char c :: rest => (assemble rest).map (c :: ·)
  | .unit high :: .unit low :: rest =>
    if 0xd800 ≤ high && high < 0xdc00 then
      if 0xdc00 ≤ low && low < 0xe000 then
        (assemble rest).map (Char.ofNat (0x10000 + (high - 0xd800) * 0x400 + (low - 0xdc00)) :: ·)
      else none
    else if 0xdc00 ≤ high && high < 0xe000 then none
    else (assemble (.unit low :: rest)).map (Char.ofNat high :: ·)
  | .unit n :: rest =>
    if 0xd800 ≤ n && n < 0xe000 then none else (assemble rest).map (Char.ofNat n :: ·)

def textOf (pieces : List Piece) : Except Fault String :=
  match assemble pieces with
  | some s => .ok (String.ofList s)
  | none => .error .brokenText

mutual

def ofTree : Nat → Tree → Except Fault Json
  | _, .null => .ok .null
  | _, .bool b => .ok (.bool b)
  | _, .numeral n =>
    match n.value? with
    | some v => .ok (.number v)
    | none => .error .outOfRange
  | _, .text pieces => (textOf pieces).map .text
  | 0, .array _ => .error .tooDeep
  | depth + 1, .array items => (ofItems depth items).map .array
  | 0, .object _ => .error .tooDeep
  | depth + 1, .object members => (ofMembers depth members).map .object

def ofItems : Nat → List Tree → Except Fault (List Json)
  | _, [] => .ok []
  | depth, tree :: rest => do
    let v ← ofTree depth tree
    let more ← ofItems depth rest
    return v :: more

def ofMembers : Nat → List (List Piece × Tree) → Except Fault (List (String × Json))
  | _, [] => .ok []
  | depth, (key, tree) :: rest => do
    let k ← textOf key
    let v ← ofTree depth tree
    let more ← ofMembers depth rest
    return (k, v) :: more

end

def depthLimit : Nat := 127

/-- Puts a value under its key: a repeated key keeps its first place and takes
the last value. -/
def put {α : Type} (members : List (String × α)) (key : String) (v : α) : List (String × α) :=
  if members.any fun m => m.1 == key then
    members.map fun m => if m.1 == key then (key, v) else m
  else members ++ [(key, v)]

def merged {α : Type} (members : List (String × α)) : List (String × α) :=
  members.foldl (fun done m => put done m.1 m.2) []

mutual

def settled : Json → Json
  | .array items => .array (settledItems items)
  | .object members => .object (merged (settledMembers members))
  | v => v

def settledItems : List Json → List Json
  | [] => []
  | v :: rest => settled v :: settledItems rest

def settledMembers : List (String × Json) → List (String × Json)
  | [] => []
  | (k, v) :: rest => (k, settled v) :: settledMembers rest

end

def parse (s : String) : Except Fault Json :=
  match Tree.parse? s with
  | some tree => ofTree depthLimit tree
  | none => .error .malformed

end Json
end MediaGraph
