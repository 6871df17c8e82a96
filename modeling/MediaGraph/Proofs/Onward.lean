import MediaGraph.Proofs.Lasting

/-! What stays true while a graph grows.
Without chains that are put behind each other and without pipes that wait to be fed, stages
point to later ones only, and what is added belongs to stages that are new. -/
namespace MediaGraph.Session
open Relation

def Rising (s : Session) : Prop := ∀ i j, (s.stage i).next = some j → i < j

def AllFed (s : Session) : Prop := ∀ p, p < s.pipes.size → (s.pipe p).fed = true

/-- Output pads keep their pipes and readers their stages; new readers are on new stages. -/
structure Onward (s t : Session) : Prop where
  catalog : t.catalog = s.catalog
  supplied : Supplied s t
  stages : s.stages.size ≤ t.stages.size
  lasts : Lasts s t
  readers : s.readers.size ≤ t.readers.size
  owner : ∀ r, r < s.readers.size → (t.reader r).owner = (s.reader r).owner
  later : ∀ r i, s.readers.size ≤ r → r < t.readers.size → (t.reader r).owner = .stage i →
    s.stages.size ≤ i

section Steps
variable {s t u : Session}

theorem Supplied.allFed (supplied : Supplied s t) (fed : s.AllFed) : t.AllFed := by
  intro p inside
  cases after : (t.pipe p).fed with
  | true => rfl
  | false =>
    obtain ⟨bound,before⟩ := supplied.fed p inside after
    simp [fed p bound] at before

theorem Onward.refl (s : Session) : Onward s s where
  catalog := rfl
  supplied := .of_pipes rfl
  stages := Nat.le_refl _
  lasts := .refl s
  readers := Nat.le_refl _
  owner _ _ := rfl
  later _ _ low high := by omega

theorem Onward.trans (first : Onward s t) (second : Onward t u) : Onward s u where
  catalog := second.catalog.trans first.catalog
  supplied := first.supplied.trans second.supplied
  stages := Nat.le_trans first.stages second.stages
  lasts := first.lasts.trans second.lasts
  readers := Nat.le_trans first.readers second.readers
  owner r inside :=
    (second.owner r (Nat.lt_of_lt_of_le inside first.readers)).trans (first.owner r inside)
  later r i low high mine := by
    rcases Nat.lt_or_ge r t.readers.size with before | after
    · exact first.later r i low before ((second.owner r before).symm.trans mine)
    · exact Nat.le_trans first.stages (second.later r i after high mine)

theorem Onward.of_stages (supplied : Supplied s t) (catalog : t.catalog = s.catalog)
    (readers : t.readers = s.readers) (stages : s.stages.size ≤ t.stages.size)
    (lasts : Lasts s t) : Onward s t := by
  refine ⟨catalog,supplied,stages,lasts,Nat.le_of_eq (by rw [readers]),fun r _ => ?_,?_⟩
  · rw [reader,readers]
    rfl
  · intro r i low high
    rw [readers] at high
    omega

theorem ChainsKept.onward (kept : ChainsKept s t) : Onward s t where
  catalog := kept.catalog
  supplied := kept.supplied
  stages := Nat.le_of_eq (by rw [kept.stages])
  lasts := .of_stages kept.stages
  readers := kept.owned.size
  owner := kept.owned.old
  later r i low high mine := by
    rw [kept.owned.new r low high] at mine
    cases mine

theorem Frozen.supplied (frozen : Frozen s t) : Supplied s t where
  size := Nat.le_of_eq frozen.size.symm
  fed p inside unfed := by
    rw [frozen.pipe p] at unfed
    exact ⟨frozen.size ▸ inside,unfed⟩
  shared p _ := by rw [frozen.pipe p]

theorem supplied_addChain (pipes : List Nat) : Supplied s (s.addChain pipes) := by
  have noted (p : Nat) (inside : p < s.pipes.size) :
      (s.addChain pipes).pipe p = note (placesOf p s.readers.size pipes) (s.pipe p) := by
    rw [addChain_eq]
    exact getD_noteAll _ _ _ _ _ inside
  refine ⟨Nat.le_of_eq (pipes_size_addChain ..).symm,fun p inside unfed => ?_,fun p inside => ?_⟩
  · have bound : p < s.pipes.size := pipes_size_addChain s pipes ▸ inside
    rw [noted p bound,note_fed] at unfed
    exact ⟨bound,unfed⟩
  · rw [noted p inside,note_shared]

theorem onward_addChain (pipes : List Nat) : Onward s (s.addChain pipes) where
  catalog := by rw [addChain_eq]
  supplied := supplied_addChain pipes
  stages := by simp [addChain_eq]
  lasts := lasts_addChain pipes
  readers := by simp [addChain_eq]
  owner r inside := by rw [reader_addChain_old s pipes r inside]
  later r i low high mine := by
    obtain ⟨k,small,_,found⟩ := reader_addChain_late s pipes r low high
    rw [found] at mine
    cases mine
    exact Nat.le_refl _

theorem onward_attach (p : Nat) (name : String) : Onward s (s.attach p name) where
  catalog := rfl
  supplied := by
    have noted : Supplied s (s.modifyPipe p fun pipe =>
        { note [s.readers.size] pipe with splitter := some s.stages.size }) :=
      .of_pipe p (fun fed => (note_fed ..).trans fed) (note_shared ..)
    exact noted.trans (.of_pipes rfl)
  stages := by simp [attach]
  lasts := lasts_attach p name
  readers := by simp [attach]
  owner r inside := by rw [reader_attach,if_neg (Nat.ne_of_lt inside)]
  later r i low high mine := by
    have last : r = s.readers.size := by
      simp only [attach,Array.size_push] at high
      omega
    rw [reader_attach,if_pos last] at mine
    cases mine
    exact Nat.le_refl _

theorem onward_output {i : Nat} {op : Operation} (inside : i < s.stages.size) :
    Onward s (s.addOutput i op) := by
  have added : Supplied s (s.addPipe { Pipe.anonymous s.freshName with
      hint := some s!"{op.name}.output.{(s.stage i).outputs.size}"
      media := op.outputs.media (s.stage i).outputs.size
      fed := true }) := .of_push rfl
  exact .of_stages (added.trans (.of_pipes rfl)) rfl rfl (Nat.le_of_eq Array.size_modify.symm)
    (lasts_output inside)

theorem Growth.onward (growth : Growth s t) : Onward s t := by
  have lasts := growth.lasts
  cases growth with
  | paint frozen =>
    exact .of_stages frozen.supplied (by rw [frozen.rest]) (by rw [frozen.rest])
      (Nat.le_of_eq (by rw [frozen.rest])) lasts
  | tables _ kept => exact kept.onward
  | place pipes => exact onward_addChain pipes
  | hold => exact .of_stages (.of_pipes rfl) rfl rfl (Nat.le_of_eq Array.size_modify.symm) lasts
  | append => exact .of_stages (.of_pipes rfl) rfl rfl (by simp [Session.append]) lasts
  | connect => exact .of_stages (.of_pipes rfl) rfl rfl (Nat.le_of_eq Array.size_modify.symm) lasts
  | output i op _ holds => exact onward_output (holds_inside holds)
  | attach p name => exact onward_attach p name

theorem onward_of_growth (grown : ReflTransGen Growth s t) : Onward s t := by
  induction grown with
  | refl => exact .refl s
  | tail _ growth ih => exact ih.trans growth.onward

theorem Rising.of_stages (rising : Rising s)
    (next : ∀ i, (t.stage i).next = (s.stage i).next ∨ (t.stage i).next = none) : Rising t := by
  intro i j follows
  rcases next i with same | none
  · exact rising i j (same ▸ follows)
  · rw [none] at follows
    cases follows

theorem Rising.of_growth (rising : Rising s) (growth : Growth s t) : Rising t := by
  cases growth with
  | paint frozen =>
    have stages : t.stages = s.stages := by rw [frozen.rest]
    exact rising.of_stages fun i => .inl (by rw [stage,stages]; rfl)
  | tables _ kept => exact rising.of_stages fun i => .inl (by rw [stage,kept.stages]; rfl)
  | place pipes =>
    refine rising.of_stages fun i => ?_
    rw [stage_addChain]
    split
    · exact .inr rfl
    · exact .inl rfl
  | attach p name =>
    refine rising.of_stages fun i => ?_
    rw [stage_attach]
    split
    · exact .inr rfl
    · exact .inl rfl
  | hold i op =>
    refine rising.of_stages fun j => .inl ?_
    rw [stage_hold]
    split <;> rfl
  | connect i pipes =>
    refine rising.of_stages fun j => .inl ?_
    rw [stage,modifyStage,getD_modify]
    split <;> rfl
  | output i op _ holds =>
    refine rising.of_stages fun j => .inl ?_
    rw [stage_addOutput s i op j (holds_inside holds)]
    split <;> rfl
  | append i op _ holds =>
    have inside := inside_of_holds holds
    intro j k follows
    rw [stage_append s i op j inside] at follows
    split at follows
    · cases follows
    · split at follows
      next same =>
        cases follows
        exact same ▸ inside
      next => exact rising j k follows

theorem rising_of_growth (grown : ReflTransGen Growth s t) (rising : Rising s) : Rising t := by
  induction grown with
  | refl => exact rising
  | tail _ growth ih => exact ih.of_growth growth

end Steps
end MediaGraph.Session
