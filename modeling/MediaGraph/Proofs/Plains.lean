import MediaGraph.Proofs.Handles

/-! Moves that choose nothing.
Most calls neither choose the name of a pipe nor put pipes of the caller's on pads: the names that
they give are made up, and the outputs that they make are declared. -/
namespace MediaGraph.Session

/-- A move that neither chooses a name nor puts given pipes on pads. An output is made only for a pad
that the operation has. -/
inductive Plain : Ledger → Ledger → Prop
  | anonymous (s put took) : Plain ⟨s,put,took,[]⟩ ⟨s.addAnonymous id,put,took,[]⟩
  | paint (s put took p media hint)
      (kept : (s.pipe p).media ≠ .unknown → media = (s.pipe p).media) :
      Plain ⟨s,put,took,[]⟩ ⟨s.paint p media hint,put,took,[]⟩
  | place (s put took pipes) (inside : ∀ p ∈ pipes, p < s.pipes.size)
      (outer : ∀ p ∈ pipes, ¬ s.Branch p) :
      Plain ⟨s,put,took,[]⟩ ⟨s.addChain pipes,put ++ numbered s.readers.size pipes,took,[]⟩
  | append (s put took i op) (holds : (s.stage i).operation ≠ none)
      (tail : (s.stage i).next = none) (bare : (s.stage i).outputs = #[]) (other : ¬ s.Made i) :
      Plain ⟨s,put,took,[]⟩ ⟨s.append i op,put,took,[]⟩
  | output (s put took i op) (holds : s.operationAt i = some op) (other : ¬ s.Made i)
      (declared : op.outputs.lacks (s.stage i).outputs.size = false) :
      Plain ⟨s,put,took,[]⟩ ⟨s.addOutput i op,put,took,[]⟩
  | splice (s put took a b) (insideA : a < s.stages.size) (insideB : b < s.stages.size)
      (tail : (s.stage a).next = none) (apart : a ∉ s.sequence (s.head b))
      (otherA : ¬ s.Made a) (otherB : ¬ s.Made b) :
      Plain ⟨s,put,took,[]⟩ ⟨s.splice a (s.head b),put,took,[]⟩
  | arguments (s put took o args) (other : ∀ i, s.Made i → (s.stage i).operation ≠ some o) :
      Plain ⟨s,put,took,[]⟩ ⟨s.putArguments o args,put,took,[]⟩
  | hold (s put took i op) (inside : i < s.stages.size) (vacant : (s.stage i).operation = none) :
      Plain ⟨s,put,took,[]⟩ ⟨s.hold i op,put,took,(s.stage i).inputs⟩
  | turn (l m) (turn : Turn l m) : Plain l m

abbrev Plains := Relation.ReflTransGen Plain

variable {l m : Ledger}

theorem Plain.move (plain : Plain l m) : Move l m := by
  cases plain with
  | anonymous => exact .anonymous ..
  | paint _ _ _ _ _ _ kept => exact .paint _ _ _ _ _ _ kept
  | place _ _ _ _ inside outer => exact .place _ _ _ _ inside outer
  | append _ _ _ _ _ holds tail bare other => exact .append _ _ _ _ _ holds tail bare other
  | output _ _ _ _ _ holds other => exact .output _ _ _ _ _ holds other
  | splice _ _ _ _ _ insideA insideB tail apart otherA otherB =>
    exact .splice _ _ _ _ _ insideA insideB tail apart otherA otherB
  | arguments _ _ _ _ _ other => exact .arguments _ _ _ _ _ other
  | hold _ _ _ _ _ inside vacant => exact .hold _ _ _ _ _ inside vacant
  | turn _ _ turn => exact .turn _ _ turn

theorem Plains.moves (plains : Plains l m) : Moves l m :=
  Relation.ReflTransGen.mono (fun _ _ plain => Plain.move plain) _ _ plains

theorem Turns.plains (turns : Turns l m) : Plains l m :=
  Relation.ReflTransGen.mono (fun l m turn => Plain.turn l m turn) _ _ turns

theorem Plains.kept (plains : Plains l m) (kept : l.Kept) : m.Kept := Moves.kept (Plains.moves plains) kept

theorem Plains.later (plains : Plains l m) (kept : l.Kept) : Later l.session m.session :=
  Moves.later (Plains.moves plains) kept

end MediaGraph.Session
