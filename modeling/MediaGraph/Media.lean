import MediaGraph.Text.Blank

/-! The kinds of media that a pipe can carry. -/
namespace MediaGraph

/-- `unknown` is a pipe whose kind has not been settled yet. -/
inductive Media where
  | unknown
  | video
  | audio
  | data
  | subtitle
  | attachment
  | nb
  deriving DecidableEq, Repr, Inhabited

namespace Media

def name : Media → String
  | unknown => "unknown"
  | video => "video"
  | audio => "audio"
  | data => "data"
  | subtitle => "subtitle"
  | attachment => "attachment"
  | nb => "nb"

def all : List Media := [unknown, video, audio, data, subtitle, attachment, nb]

def ofName? (text : String) : Option Media := all.find? fun m => m.name == text

theorem ofName?_name (m : Media) : ofName? m.name = some m := by cases m <;> rfl

def ofLetter? : List Char → Option Media
  | ['v'] => some video
  | ['V'] => some video
  | ['a'] => some audio
  | ['s'] => some subtitle
  | ['d'] => some data
  | ['t'] => some attachment
  | _ => none

/-- The kind of an input stream by its specifier, such as `0:v` or `1:a:0`: the
first part that is the letter of a kind decides. -/
def ofSpecifier (spec : String) : Media :=
  ((Text.cut ':' spec.toList).findSome? ofLetter?).getD unknown

end Media

inductive Pads where
  | none
  | fixed (pads : List Media)
  | dynamic
  deriving DecidableEq, Repr

namespace Pads

def count : Pads → Option Nat
  | none => some 0
  | fixed pads => some pads.length
  | dynamic => Option.none

def declared : Pads → List Media
  | fixed pads => pads
  | _ => []

/-- The declared kind of pad `i`; `unknown` where none is declared. -/
def media (pads : Pads) (i : Nat) : Media := (pads.declared[i]?).getD .unknown

def lacks (pads : Pads) (i : Nat) : Bool :=
  match pads.count with
  | some count => count ≤ i
  | Option.none => false

end Pads
end MediaGraph
