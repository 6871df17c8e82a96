import MediaGraph.Session.Perform

/-! Commands that filters are sent at set times.
The text of a schedule has its intervals between semicolons and the commands of
an interval between commas; it becomes the one argument of a filter that sends
them. -/
namespace MediaGraph

inductive Target where
  | name (text : String)
  | operation (id : OperationId)
  deriving DecidableEq, Repr

structure Command where
  /-- When in the interval the command is sent, such as `enter` or `leave`. -/
  flags : List String
  target : Target
  name : String
  argument : String
  deriving DecidableEq, Repr

structure Interval where
  start : String
  stop : Option String
  commands : List Command
  deriving DecidableEq, Repr

structure Schedule where
  intervals : List Interval
  deriving DecidableEq, Repr

def Target.text (s : Session) : Target → Except GraphError String
  | name text => .ok text
  | operation id => (s.operationFor id).map Operation.target

def Command.text (s : Session) (c : Command) : Except GraphError String := do
  let target ← c.target.text s
  let flags := if c.flags.isEmpty then [] else ["[" ++ "+".intercalate c.flags ++ "]"]
  let argument := if c.argument.isEmpty then [] else [c.argument]
  return " ".intercalate (flags ++ [target, c.name] ++ argument)

def Interval.time (interval : Interval) : String :=
  match interval.stop with
  | some stop => interval.start ++ "-" ++ stop
  | none => interval.start

def Interval.text (s : Session) (interval : Interval) : Except GraphError String := do
  let commands ← interval.commands.mapM (Command.text s)
  return interval.time ++ " " ++ ", ".intercalate commands

namespace Schedule

def empty : Schedule := ⟨[]⟩

def interval (schedule : Schedule) (start : String) (stop : Option String) : Schedule :=
  ⟨schedule.intervals ++ [⟨start, stop, []⟩]⟩

def addToLast (c : Command) : List Interval → Option (List Interval)
  | [] => none
  | [last] => some [{ last with commands := last.commands ++ [c] }]
  | first :: rest => (addToLast c rest).map (first :: ·)

def command (schedule : Schedule) (c : Command) : Except GraphError Schedule :=
  match addToLast c schedule.intervals with
  | some intervals => .ok ⟨intervals⟩
  | none => .error (.structural (.noInterval c.name))

def isEmpty (schedule : Schedule) : Bool := schedule.intervals.isEmpty

def text (s : Session) (schedule : Schedule) : Except GraphError String := do
  let intervals ← schedule.intervals.mapM (Interval.text s)
  return ";".intercalate intervals

def toOperation (s : Session) (schedule : Schedule) (media : Media) :
    Except GraphError Operation := do
  let name ← Helper.commands.filter media "command list"
  let text ← schedule.text s
  return (Operation.named name).withArguments [.scalar text] |>.withOutputs (.fixed [media])

end Schedule
end MediaGraph
