import MediaGraph.Catalog.Basic
import MediaGraph.Json.Record
import MediaGraph.Media.Document

/-! Catalogs as documents.
A document lists filters; reading one adds them to the built-in catalog. Entry
points are not written. -/
namespace MediaGraph.Catalog.Document
open Json

def readPads (tree : Tree) : Except Fault Pads := do
  let v ← ofTree depthLimit tree
  (Pads.ofJson v).mapError fun _ => Fault.unexpected "pads"

def readFlags (tree : Tree) : Except Fault FilterFlags := do
  let found ← tree.fields ["timeline", "slice_threads", "command"]
  return { timeline := ← found.get "timeline" false Tree.asBool
           sliceThreads := ← found.get "slice_threads" false Tree.asBool
           command := ← found.get "command" false Tree.asBool }

def readSpec (tree : Tree) : Except Fault FilterSpec := do
  let found ← tree.fields ["name", "description", "inputs", "outputs", "flags"]
  return { name := ← found.need "name" Tree.asText
           description := ← found.get "description" "" Tree.asText
           inputs := ← found.need "inputs" readPads
           outputs := ← found.need "outputs" readPads
           flags := ← found.get "flags" .clear readFlags }

def readSpecs (text : String) : Except Fault (List FilterSpec) := do
  match Tree.parse? text with
  | none => .error .malformed
  | some tree =>
    let found ← tree.fields ["filters"]
    found.get "filters" [] (Tree.asList readSpec)

def read (text : String) : Except Fault Catalog := return builtin.extend (← readSpecs text)

def writeFlags (flags : FilterFlags) : Json :=
  .object [("timeline", .bool flags.timeline), ("slice_threads", .bool flags.sliceThreads),
    ("command", .bool flags.command)]

def writeSpec (spec : FilterSpec) : Json :=
  .object [("name", .text spec.name), ("description", .text spec.description),
    ("inputs", spec.inputs.toJson), ("outputs", spec.outputs.toJson),
    ("flags", writeFlags spec.flags)]

def write (catalog : Catalog) : Json :=
  .object [("filters", .array (catalog.filters.map fun entry => writeSpec entry.2))]

end MediaGraph.Catalog.Document
