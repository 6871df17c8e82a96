import MediaGraph.Proofs.Changes

/-! Output pads keep their pipes.
Pads are added behind the ones that are there, and are set only where there are none. So whatever
calls are made, succeed or not, a pad that has a pipe has it from then on. -/
namespace MediaGraph.Session
open Relation

/-- Every output pad that has a pipe keeps it. -/
def Lasts (s t : Session) : Prop :=
  ∀ i n p : Nat, (s.stage i).outputs[n]? = some p → (t.stage i).outputs[n]? = some p

section Steps
variable {s t u : Session}

theorem Lasts.refl (s : Session) : Lasts s s := fun _ _ _ found => found

theorem Lasts.trans (first : Lasts s t) (second : Lasts t u) : Lasts s u :=
  fun i n p found => second i n p (first i n p found)

theorem Lasts.mem (lasts : Lasts s t) {i p : Nat} (member : p ∈ (s.stage i).outputs) :
    p ∈ (t.stage i).outputs := by
  obtain ⟨n,found⟩ := Array.mem_iff_getElem?.mp member
  exact Array.mem_of_getElem? (lasts i n p found)

theorem Lasts.of_stages (stages : t.stages = s.stages) : Lasts s t := by
  intro i n p found
  rwa [stage,stages]

theorem Lasts.of_outputs (same : ∀ i, i < s.stages.size → (t.stage i).outputs = (s.stage i).outputs) :
    Lasts s t := by
  intro i n p found
  have inside : i < s.stages.size := by
    refine getD_bound s.stages .empty i fun bare => ?_
    rw [stage,bare] at found
    simp [Stage.empty] at found
  rwa [same i inside]

theorem inside_of_output {i p : Nat} (member : p ∈ (s.stage i).outputs) : i < s.stages.size := by
  refine getD_bound s.stages .empty i fun same => ?_
  rw [stage,same] at member
  simp [Stage.empty] at member

theorem lasts_addChain (pipes : List Nat) : Lasts s (s.addChain pipes) :=
  .of_outputs fun i inside => by rw [stage_addChain,if_neg (Nat.ne_of_lt inside)]

theorem lasts_attach (p : Nat) (name : String) : Lasts s (s.attach p name) :=
  .of_outputs fun i inside => by rw [stage_attach,if_neg (Nat.ne_of_lt inside)]

theorem lasts_output {i : Nat} {op : Operation} (inside : i < s.stages.size) :
    Lasts s (s.addOutput i op) := by
  intro j n p found
  rw [stage_addOutput s i op j inside]
  split
  · have bound := (Array.getElem?_eq_some_iff.mp found).1
    rw [Array.getElem?_push,if_neg (Nat.ne_of_lt bound)]
    exact found
  · exact found

theorem Growth.lasts (growth : Growth s t) : Lasts s t := by
  cases growth with
  | paint frozen => exact .of_stages (by rw [frozen.rest])
  | tables _ kept => exact .of_stages kept.stages
  | place pipes => exact lasts_addChain pipes
  | hold i op =>
    refine .of_outputs fun j _ => ?_
    rw [stage_hold]
    split <;> rfl
  | append i op _ holds =>
    refine .of_outputs fun j inside => ?_
    rw [stage_append s i op j (inside_of_holds holds),if_neg (Nat.ne_of_lt inside)]
    split <;> rfl
  | connect i pipes _ _ _ bare =>
    intro j n p found
    rw [stage,modifyStage,getD_modify]
    split
    next same =>
      rw [same.1,bare] at found
      simp at found
    next => exact found
  | output i op _ holds => exact lasts_output (holds_inside holds)
  | attach p name => exact lasts_attach p name

theorem Change.lasts (change : Change s t) : Lasts s t := by
  cases change with
  | growth growth => exact growth.lasts
  | pipe _ stages => exact .of_stages stages
  | splice a b =>
    refine .of_outputs fun i _ => ?_
    simp only [Session.splice,stage]
    rw [getD_modify,getD_modify]
    split <;> split <;> rfl
  | close => exact .of_stages rfl

theorem lasts_of_changes (changes : ReflTransGen Change s t) : Lasts s t := by
  induction changes with
  | refl => exact .refl s
  | tail _ change ih => exact ih.trans change.lasts

theorem lasts_of_growth (grown : ReflTransGen Growth s t) : Lasts s t :=
  lasts_of_changes (ReflTransGen.mono (fun _ _ => Change.growth) _ _ grown)

theorem Growth.serial (growth : Growth s t) : t.serial = s.serial := by
  cases growth with
  | paint frozen => rw [frozen.rest]
  | tables _ kept => exact kept.serial
  | place pipes => rw [addChain_eq]
  | _ => rfl

theorem serial_of_growth (grown : ReflTransGen Growth s t) : t.serial = s.serial := by
  induction grown with
  | refl => rfl
  | tail _ growth ih => exact growth.serial.trans ih

end Steps
end MediaGraph.Session
