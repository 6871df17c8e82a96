import MediaGraph.Call
import MediaGraph.Table

/-! What is known about filters.
A catalog knows the pads of filters by name, and the entry points, which come
before a filter of the same name. -/
namespace MediaGraph

structure FilterFlags where
  timeline : Bool
  sliceThreads : Bool
  command : Bool
  deriving DecidableEq, Repr

def FilterFlags.clear : FilterFlags := ⟨false, false, false⟩

structure FilterSpec where
  name : String
  description : String
  inputs : Pads
  outputs : Pads
  flags : FilterFlags
  deriving DecidableEq, Repr

def FilterSpec.plain (name : String) (inputs outputs : Pads) : FilterSpec :=
  ⟨name, "", inputs, outputs, .clear⟩

structure Catalog where
  filters : Table FilterSpec
  entries : Table EntryPoint

namespace Catalog

def empty : Catalog := ⟨[], []⟩

/-- Adds a filter under its name; a later one replaces an earlier one. -/
def insert (catalog : Catalog) (spec : FilterSpec) : Catalog :=
  { catalog with filters := catalog.filters.insert spec.name spec }

def extend (catalog : Catalog) (specs : List FilterSpec) : Catalog := specs.foldl insert catalog

def register (catalog : Catalog) (name : String) (entry : EntryPoint) : Catalog :=
  { catalog with entries := catalog.entries.insert name entry }

def get? (catalog : Catalog) (name : String) : Option FilterSpec := catalog.filters.find? name

def entry? (catalog : Catalog) (name : String) : Option EntryPoint := catalog.entries.find? name

def knows (catalog : Catalog) (name : String) : Bool :=
  catalog.filters.has name || catalog.entries.has name

def names (catalog : Catalog) : List String := catalog.filters.keys

def summary (catalog : Catalog) : String :=
  let entries := ", ".intercalate (catalog.entries.keys.map Text.cite)
  s!"Catalog \x7b filters: {catalog.filters.length}, entries: [{entries}] \x7d"

/-- The count that a text gives: digits, after a plus sign or none, below 2^64. -/
def readCount (text : String) : Option Nat :=
  let digits :=
    match text.toList with
    | '+' :: rest => rest
    | s => s
  if digits.isEmpty || !digits.all Char.isDigit then none
  else
    let n := digits.foldl (fun n c => n * 10 + (c.toNat - 48)) 0
    if n < UInt64.size then some n else none

/-- Splits one pipe into as many as the argument says, two without one. -/
def splitEntry : EntryPoint
  | [input], [] => .ofCall (.splitChain input 2)
  | [input], [.scalar text] =>
    match readCount text with
    | some count => .ofCall (.splitChain input count)
    | none => .fail (.script (.badCount text))
  | [_], _ => .fail (.script .badCountArguments)
  | inputs, _ => .fail (.structural (.oneInput "split" inputs.length))

def discardEntry : EntryPoint
  | [input], _ => .ofCall (.discard input)
  | inputs, _ => .fail (.structural (.oneInput "discard" inputs.length))

def builtinFilters : List FilterSpec :=
  let video : Pads := .fixed [.video]
  let audio : Pads := .fixed [.audio]
  [.plain "split" video .dynamic, .plain "asplit" audio .dynamic,
   .plain "null" video video, .plain "anull" audio audio,
   .plain "nullsink" video .none, .plain "anullsink" audio .none,
   .plain "concat" .dynamic .dynamic,
   .plain "sendcmd" video video, .plain "asendcmd" audio audio]

def builtin : Catalog :=
  ((empty.extend builtinFilters).register "split" splitEntry).register "discard" discardEntry

end Catalog
end MediaGraph
