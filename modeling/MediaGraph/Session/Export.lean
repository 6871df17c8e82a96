import MediaGraph.Session.Placement

/-! Completing a graph.
Each export gives a pipe its final name: a pipe that has it keeps it, a pipe
without a fixed name takes it, and any other is sent through an operation that
changes nothing, whose output takes it. Then every pipe has to be fed and read,
and names have to differ. -/
namespace MediaGraph.Session

def passThrough (p : Nat) : Build Nat := do
  let name ← helper .passThrough ((← get).pipe p)
  let chain ← start [← pipeId p]
  let chain ← extend chain (.named name)
  let out ← output chain 0
  let media := ((← get).pipe p).media
  updatePipe out.index fun pipe => pipe.mark media
  return out.index

def exportTarget (name : String) (p : Nat) : Build Nat := do
  let pipe := (← get).pipe p
  if pipe.name = name then return p
  else if pipe.fixed then
    let out ← passThrough p
    updatePipe out fun pipe => pipe.rename name
    return out
  else
    updatePipe p fun pipe => pipe.rename name
    return p

def exportPipe (name : String) (id : PipeId) : Build Unit := do
  let p ← pipeIndex id
  let target ← exportTarget name p
  let r := (← get).readers.size
  modify (addReader target .exported)
  resolve r

def exportAll : List (String × PipeId) → Build Unit
  | [] => return
  | (name, id) :: rest => do
    exportPipe name id
    exportAll rest

/-- A pipe with a name that an earlier one has, among the pipes that are fed or
read. `seen` holds the earlier ones. -/
def nameClash (seen : List Pipe) : List Pipe → Option (Pipe × Pipe)
  | [] => none
  | p :: rest =>
    if p.fed || p.taken then
      match seen.find? fun q => q.name == p.name with
      | some q => some (q, p)
      | none => nameClash (p :: seen) rest
    else nameClash seen rest

/-- The first pipe, shared ones apart, that is fed and not read or the reverse. -/
def dangling (pipes : List Pipe) : Option Pipe :=
  pipes.find? fun p => !p.shared && p.fed != p.taken

def validate (s : Session) : Except GraphError Unit :=
  match nameClash [] s.pipes.toList with
  | some (q, p) => .error (.naming (.sameName p.name q.describe p.describe))
  | none =>
    match dangling s.pipes.toList with
    | some p => .error (.binding (if p.fed then .neverRead p.describe else .neverFed p.describe))
    | none => .ok ()

def complete (exports : List (String × PipeId)) : Build Unit := do
  requireOpen "complete"
  exportAll exports
  match (← get).validate with
  | .ok () => modify fun s => { s with completed := true }
  | .error e => throw e

end MediaGraph.Session
