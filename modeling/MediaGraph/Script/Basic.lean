import MediaGraph.Json.Value
import MediaGraph.Media
import MediaGraph.Table

/-! Scripts: graphs written down.
A script names the pipes of its input streams, runs steps that name the pipes they
make, and exports named pipes. Its names are seen in the script only. -/
namespace MediaGraph
namespace Script

structure Input where
  stream : String
  media : Option Media
  deriving DecidableEq, Repr

structure TimedCommand where
  flags : List String
  target : String
  name : String
  argument : Option Json

structure TimedInterval where
  start : Json
  stop : Option Json
  commands : List TimedCommand

/-- One filter of a step: a filter by name with arguments, or a list of commands. -/
structure FilterUse where
  name : Option String
  id : Option String
  args : List Json
  commands : List TimedInterval
  media : Option Media

inductive Step where
  | chain (inputs : List String) (filters : List FilterUse) (outputs : List String)
  /-- Plays segments one after the other; each row is a segment. -/
  | concat (segments : List (List String)) (outputs : List String)

end Script

structure Script where
  inputs : Table Script.Input
  steps : List Script.Step
  exports : List (String × String)

end MediaGraph
