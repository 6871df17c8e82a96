import MediaGraph.Argument.Document
import MediaGraph.Concat
import MediaGraph.Schedule
import MediaGraph.Script.Basic

/-! Building the graph of a script.
Names are given once and can be read any number of times; a pipe that is read
twice is fanned out by the session. -/
namespace MediaGraph.Script

abbrev Names := List (String × PipeId)

def scripted {α : Type} : Except ScriptFault α → Build α
  | .ok v => return v
  | .error fault => throw (.script fault)

def Names.bind (names : Names) (name : String) (pipe : PipeId) : Build Names := do
  if (names.lookup name).isSome then throw (.script (.duplicateAlias name))
  return (name, pipe) :: names

def Names.bindAll (names : Names) (pairs : List (String × PipeId)) : Build Names :=
  pairs.foldlM (fun names pair => names.bind pair.1 pair.2) names

def Names.resolve (names : Names) (name : String) : Build PipeId :=
  match names.lookup name with
  | some pipe => return pipe
  | none => throw (.script (.unknownAlias name))

def Names.resolveAll (names : Names) (wanted : List String) : Build (List PipeId) :=
  wanted.mapM names.resolve

def bindInput (names : Names) (name : String) (input : Input) : Build Names := do
  let pipe ← Session.inputStream input.stream
  match input.media with
  | some media => Session.setMedia pipe media
  | none => pure ()
  names.bind name pipe

def command (c : TimedCommand) : Except ScriptFault Command := do
  let argument ←
    match c.argument with
    | some v => Argument.scalarText v
    | none => pure ""
  return ⟨c.flags, .name c.target, c.name, argument⟩

def interval (i : TimedInterval) : Except ScriptFault Interval := do
  let start ← Argument.scalarText i.start
  let stop ← i.stop.mapM Argument.scalarText
  return ⟨start, stop, ← i.commands.mapM command⟩

def schedule (intervals : List TimedInterval) : Except ScriptFault Schedule :=
  return ⟨← intervals.mapM interval⟩

/-- A filter that the catalog does not know may have any outputs. -/
def knownOr (catalog : Catalog) (name : String) : Operation :=
  match catalog.get? name with
  | some spec => (Operation.named name).withOutputs spec.outputs
  | none => .named name

def filterOperation (use : FilterUse) : Build Operation := do
  let op ←
    match use.name, use.commands.isEmpty with
    | some _, false => throw (.script .nameAndCommands)
    | none, true => throw (.script .nameOrCommands)
    | none, false => do
      let schedule ← scripted (schedule use.commands)
      MonadExcept.ofExcept (schedule.toOperation (← get) (use.media.getD .unknown))
    | some name, true => do
      let args ← scripted (use.args.mapM Argument.ofJson)
      pure ((knownOr (← get).catalog name).withArguments args)
  match use.id with
  | some id => return op.withId id
  | none => return op

/-- Starts the chain of a step with its first filter. A name that is an entry
point is one here, and only here. -/
def openChain (inputs : List PipeId) (first : FilterUse) : Build ChainId := do
  match first.name, (← get).catalog.entry? (first.name.getD "") with
  | some name, some _ =>
    if first.id.isSome then throw (.script (.entryWithId name))
    let args ← scripted (first.args.mapM Argument.ofJson)
    Session.invoke name inputs args
  | _, _ => Session.place inputs (← filterOperation first)

def extendChain (chain : ChainId) : List FilterUse → Build ChainId
  | [] => return chain
  | use :: rest => do
    let next ← Session.extend chain (← filterOperation use)
    extendChain next rest

def buildChain (inputs : List PipeId) : List FilterUse → Build ChainId
  | [] => throw (.script .noFilters)
  | first :: rest => do
    let chain ← openChain inputs first
    extendChain chain rest

def atStep {α : Type} (i : Nat) (build : Build α) : Build α :=
  tryCatch build fun e => throw (e.atStep i)

def addSegments (names : Names) (c : Concat) : List (List String) → Build Concat
  | [] => return c
  | segment :: rest => do
    let pipes ← names.resolveAll segment
    addSegments names (← MonadExcept.ofExcept (c.addSegment pipes)) rest

def runStep (i : Nat) (names : Names) : Step → Build Names
  | .chain inputs filters outputs => do
    let pipes ← names.resolveAll inputs
    let made ← atStep i do
      let chain ← buildChain pipes filters
      Session.takeOutputs chain outputs.length
    names.bindAll (outputs.zip made)
  | .concat segments outputs => do
    let c ← addSegments names .empty segments
    let (_, made) ← atStep i c.finalize
    if outputs.length > made.length then
      throw (.script (.step i (.fewOutputs made.length outputs.length)))
    names.bindAll (outputs.zip made)

def runSteps (names : Names) : Nat → List Step → Build Names
  | _, [] => return names
  | i, step :: rest => do
    let names ← runStep i names step
    runSteps names (i + 1) rest

def build (script : Script) : Build (List (String × PipeId)) := do
  let names ← script.inputs.foldlM (fun names input => bindInput names input.1 input.2) []
  let names ← runSteps names 0 script.steps
  script.exports.mapM fun pair => do return (pair.1, ← names.resolve pair.2)

end MediaGraph.Script
