import MediaGraph.Media
import MediaGraph.Json.Print

/-! Media and pads in documents.
Kinds of media are written by name; pads are a list of kinds or one of two words. -/
namespace MediaGraph

/-- A kind of media is its name, or an object with the name as its only key. -/
def Media.ofJson? : Json → Option Media
  | .text name => ofName? name
  | .object [(name, .null)] => ofName? name
  | _ => none

def Media.toJson (media : Media) : Json := .text media.name

inductive PadsFault where
  | word (text : String)
  | shape
  deriving DecidableEq, Repr

def PadsFault.message : PadsFault → String
  | word text =>
    s!"pads must be \"none\", \"dynamic\" or a list of media types, got {Text.cite text}"
  | shape => "not pads"

def Pads.ofJson : Json → Except PadsFault Pads
  | .text "none" => .ok .none
  | .text "dynamic" => .ok .dynamic
  | .text other => .error (.word other)
  | .array items =>
    match items.mapM Media.ofJson? with
    | some media => .ok (.fixed media)
    | Option.none => .error .shape
  | _ => .error .shape

def Pads.toJson : Pads → Json
  | none => .text "none"
  | dynamic => .text "dynamic"
  | fixed media => .array (media.map Media.toJson)

end MediaGraph
