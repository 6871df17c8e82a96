import MediaGraph.Session.Perform

/-! From a builder to the text of its graph. -/
namespace MediaGraph

def Session.finish (exports : List (String × PipeId)) : Build String := do
  complete exports
  return (← get).render

/-- The text of the graph that a builder makes in a new session. The builder
answers the exports. -/
def compile (catalog : Catalog) (build : Build (List (String × PipeId))) :
    Except GraphError String :=
  match (do Session.finish (← build)).run (.new 0 catalog) with
  | .ok text _ => .ok text
  | .error e _ => .error e

end MediaGraph
