import MediaGraph.Error

/-! Pipes between operations.
A pipe is fed by one output pad and read by one input pad; only the pipe of an
input stream is shared among readers. -/
namespace MediaGraph

structure Pipe where
  name : String
  fixed : Bool
  media : Media
  fed : Bool
  taken : Bool
  shared : Bool
  hint : Option String
  /-- The readers that point at the pipe; none are kept for a shared pipe. -/
  readers : List Nat
  splitter : Option Nat
  deriving DecidableEq, Repr

namespace Pipe

def anonymous (name : String) : Pipe :=
  ⟨name, false, .unknown, false, false, false, none, [], none⟩

def named (name : String) : Pipe := { anonymous name with fixed := true }

def ofStream (spec : String) : Pipe :=
  { named spec with media := Media.ofSpecifier spec, fed := true, shared := true }

instance : Inhabited Pipe := ⟨anonymous ""⟩

def label (p : Pipe) : String := "[" ++ p.name ++ "]"

def describe (p : Pipe) : String :=
  match p.hint with
  | some hint => p.label ++ " (" ++ hint ++ ")"
  | none => p.label

theorem describe_label (p : Pipe) : ∃ note, p.describe = "[" ++ p.name ++ "]" ++ note := by
  change ∃ note, p.describe = p.label ++ note
  unfold describe
  split
  next hint _ => exact ⟨" (" ++ hint ++ ")",by simp only [String.append_assoc]⟩
  next => exact ⟨"",String.append_empty.symm⟩

def feed (p : Pipe) : Except GraphError Pipe :=
  if p.fed then .error (.binding (.alreadyFed p.describe)) else .ok { p with fed := true }

/-- Any number of readers may take a shared pipe, which does not change it. -/
def take (p : Pipe) : Except GraphError Pipe :=
  if p.shared then .ok p
  else if p.taken then .error (.binding (.alreadyRead p.describe))
  else .ok { p with taken := true }

/-- Settles the kind of media, once; `unknown` settles nothing. -/
def mark (p : Pipe) (media : Media) : Except GraphError Pipe :=
  if p.media = media || media = .unknown then .ok p
  else if p.media ≠ .unknown then .error (.naming (.mediaConflict p.describe p.media media))
  else .ok { p with media := media }

def rename (p : Pipe) (name : String) : Except GraphError Pipe :=
  if p.fixed then .error (.naming (.fixedName p.describe name))
  else .ok { p with name := name, fixed := true }

end Pipe
end MediaGraph
