import MediaGraph.Json.Record
import MediaGraph.Media.Document
import MediaGraph.Script.Basic

/-! Scripts as documents.
Inputs and steps may be written in two ways each and are read whole first, so
everything in them has to be in order; elsewhere unknown fields are passed over. -/
namespace MediaGraph.Script
open Json

def readMedia (v : Json) : Except Fault Media :=
  match Media.ofJson? v with
  | some media => .ok media
  | none => .error (.unexpected "a media type")

def readInput : Json → Except Fault Input
  | .text stream => .ok ⟨stream, none⟩
  | v => do
    let found ← objectFields ["stream", "media"] v
    return { stream := ← found.need "stream" asText
             media := ← found.get "media" none (asOptional readMedia) }

def readFree (v : Json) : Except Fault Json := .ok v.settled

def readCommand (v : Json) : Except Fault TimedCommand := do
  let found ← fields ["flags", "target", "command", "arg"] v
  return { flags := ← found.get "flags" [] (asList asText)
           target := ← found.need "target" asText
           name := ← found.need "command" asText
           argument := ← found.get "arg" none (asOptional readFree) }

def readInterval (v : Json) : Except Fault TimedInterval := do
  let found ← fields ["start", "end", "commands"] v
  return { start := ← found.need "start" readFree
           stop := ← found.get "end" none (asOptional readFree)
           commands := ← found.need "commands" (asList readCommand) }

def readFilter (v : Json) : Except Fault FilterUse := do
  let found ← fields ["name", "id", "args", "commands", "media"] v
  return { name := ← found.get "name" none (asOptional asText)
           id := ← found.get "id" none (asOptional asText)
           args := ← found.get "args" [] (asList readFree)
           commands := ← found.get "commands" [] (asList readInterval)
           media := ← found.get "media" none (asOptional readMedia) }

def readConcat (v : Json) : Except Fault Step := do
  let found ← objectFields ["concat", "to"] v
  let segments ← found.need "concat" (asList (asList asText))
  return .concat segments (← found.get "to" [] (asList asText))

def readChain (v : Json) : Except Fault Step := do
  let found ← objectFields ["from", "filters", "to"] v
  let inputs ← found.get "from" [] (asList asText)
  let filters ← found.need "filters" (asList readFilter)
  return .chain inputs filters (← found.get "to" [] (asList asText))

/-- A step that reads as a concatenation is one, whatever else it says. -/
def readStep (v : Json) : Except Fault Step :=
  match readConcat v with
  | .ok step => .ok step
  | .error _ => readChain v

/-- How deep the containers in an input or a step may nest: two are around it. -/
def innerDepth : Nat := depthLimit - 2

def readInputs : Tree → Except Fault (Table Input)
  | .object members => do
    let inputs ← members.mapM fun m => do
      let name ← textOf m.1
      return (name, ← readInput (← ofTree innerDepth m.2))
    return inputs.foldl (fun table input => table.insert input.1 input.2) []
  | _ => .error (.unexpected "an object")

def readExport : Tree → Except Fault (String × String)
  | .array [name, pipe] => do return (← name.asText, ← pipe.asText)
  | _ => .error (.unexpected "a pair of names")

def ofTree? (tree : Tree) : Except Fault Script := do
  let found ← tree.fields ["inputs", "steps", "exports"]
  return { inputs := ← found.get "inputs" [] readInputs
           steps := ← found.get "steps" []
             (Tree.asList fun step => do readStep (← ofTree innerDepth step))
           exports := ← found.get "exports" [] (Tree.asList readExport) }

def read (text : String) : Except Fault Script :=
  match Tree.parse? text with
  | some tree => ofTree? tree
  | none => .error .malformed

end MediaGraph.Script
