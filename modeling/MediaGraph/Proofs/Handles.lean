import MediaGraph.Proofs.Following

/-! What callers have handles of.
The splits that the graph puts behind pipes, their outputs and their operations are
its own. Whatever a caller can name stays apart from them. -/
namespace MediaGraph.Session

def OuterPipe (s : Session) (p : Nat) : Prop := p < s.pipes.size ∧ ¬ s.Branch p

def OuterStage (s : Session) (i : Nat) : Prop := i < s.stages.size ∧ ¬ s.Made i

def OuterOperation (s : Session) (o : Nat) : Prop :=
  o < s.operations.size ∧ ∀ i, s.Made i → (s.stage i).operation ≠ some o

/-- The later session is the same one, and knows what the earlier one knew. -/
structure Later (s t : Session) : Prop where
  serial : t.serial = s.serial
  catalog : t.catalog = s.catalog
  pipe : ∀ p, s.OuterPipe p → t.OuterPipe p
  stage : ∀ i, s.OuterStage i → t.OuterStage i
  operation : ∀ o, s.OuterOperation o → t.OuterOperation o

theorem Later.refl (s : Session) : Later s s :=
  ⟨rfl,rfl,fun _ outer => outer,fun _ outer => outer,fun _ outer => outer⟩

theorem Later.trans {s t u : Session} (first : Later s t) (second : Later t u) : Later s u where
  serial := second.serial.trans first.serial
  catalog := second.catalog.trans first.catalog
  pipe p outer := second.pipe p (first.pipe p outer)
  stage i outer := second.stage i (first.stage i outer)
  operation o outer := second.operation o (first.operation o outer)

section Kept
variable {s t : Session}

theorem Untouched.of_takeDirect {r : Nat} (inside : (s.reader r).pipe < s.pipes.size) :
    Untouched s (s.takeDirect r) := by
  refine ⟨fun q => ?_,fun _ _ => rfl⟩
  rw [pipe_takeDirect s r q inside]
  split
  · split <;> rfl
  · rfl

theorem Untouched.of_addReader (p : Nat) (owner : Owner) : Untouched s (s.addReader p owner) := by
  refine ⟨fun q => ?_,fun _ _ => by rw [addReader_eq]; rfl⟩
  rw [pipe_addReader]
  split
  · rw [note_splitter]
  · rfl

theorem Untouched.later (untouched : Untouched s t) (serial : t.serial = s.serial)
    (catalog : t.catalog = s.catalog) (pipes : s.pipes.size ≤ t.pipes.size)
    (stages : s.stages.size ≤ t.stages.size) (operations : s.operations.size ≤ t.operations.size) :
    Later s t where
  serial := serial
  catalog := catalog
  pipe p outer := by
    refine ⟨Nat.lt_of_lt_of_le outer.1 pipes,?_⟩
    rw [branch_congr untouched.splitters fun i made => by rw [untouched.stages i made]]
    exact outer.2
  stage i outer := by
    refine ⟨Nat.lt_of_lt_of_le outer.1 stages,?_⟩
    rw [made_congr untouched.splitters]
    exact outer.2
  operation o outer := by
    refine ⟨Nat.lt_of_lt_of_le outer.1 operations,fun i made => ?_⟩
    have before := (made_congr untouched.splitters i).mp made
    rw [untouched.stages i before]
    exact outer.2 i before

theorem later_attach {p : Nat} (name : String) (inside : p < s.pipes.size) : Later s (s.attach p name) := by
  have stages (j : Nat) := stage_attach s p name j
  refine ⟨rfl,rfl,fun q outer => ⟨?_,?_⟩,fun i outer => ⟨?_,?_⟩,fun o outer => ⟨?_,?_⟩⟩
  · simpa [attach] using outer.1
  · exact fun after => outer.2 (branch_attach inside after)
  · simpa [attach] using Nat.lt_succ_of_lt outer.1
  · intro after
    rcases made_attach inside after with last | before
    · exact Nat.lt_irrefl _ (last ▸ outer.1)
    · exact outer.2 before
  · simpa [attach] using Nat.lt_succ_of_lt outer.1
  · intro i after holds
    rw [stages] at holds
    split at holds
    · exact Nat.lt_irrefl _ (Option.some.inj holds ▸ outer.1)
    next other =>
      rcases made_attach inside after with last | before
      · exact other last
      · exact outer.2 i before holds

theorem later_moveTo {r : Nat} {rest : List Nat} (sound : Sound s (r :: rest)) {i o : Nat}
    (holds : (s.stage i).operation = some o) : Later s (s.moveTo i o r) := by
  have inside := sound.reading.inside r (sound.reading.waiting r (by simp))
  have stages (j : Nat) := stage_moveTo s i o r j (inside_of_holds (by simp [holds]))
  have made (j : Nat) : (s.moveTo i o r).Made j ↔ s.Made j :=
    made_congr (fun q => splitter_moveTo s i o r q inside) j
  refine ⟨rfl,rfl,fun q outer => ⟨?_,?_⟩,fun j outer => ⟨?_,?_⟩,fun k outer => ⟨?_,?_⟩⟩
  · simpa [moveTo] using Nat.lt_succ_of_lt outer.1
  · rintro ⟨j,after,member⟩
    rw [stages] at member
    have before := (made j).mp after
    split at member
    · rcases Array.mem_push.mp member with old | last
      · exact outer.2 ⟨j,before,old⟩
      · exact Nat.lt_irrefl _ (last ▸ outer.1)
    · exact outer.2 ⟨j,before,member⟩
  · simpa [moveTo] using outer.1
  · rw [made]
    exact outer.2
  · simpa [moveTo] using outer.1
  · intro j after
    rw [stages]
    split <;> exact outer.2 j ((made j).mp after)

end Kept

theorem Turn.later {l m : Ledger} (turn : Turn l m) (sound : Sound l.session l.pending) :
    Later l.session m.session := by
  cases turn with
  | take s _ _ r _ free =>
    have inside := sound.reading.inside r (sound.reading.waiting r (by simp))
    exact (Untouched.of_takeDirect inside).later rfl rfl (Nat.le_of_eq Array.size_modify.symm)
      (Nat.le_refl _) (Nat.le_refl _)
  | attach _ _ _ r rest d name _ _ _ takes =>
    exact later_attach name (sound.reading.pipe_inside takes)
  | move _ _ _ _ _ _ _ _ holds => exact later_moveTo sound holds

theorem Move.later {l m : Ledger} (move : Move l m) (sound : Sound l.session l.pending) :
    Later l.session m.session := by
  have untouched := move.untouched sound
  cases move with
  | anonymous => exact (untouched rfl).later rfl rfl (by simp [addAnonymous]) (Nat.le_refl _) (Nat.le_refl _)
  | named => exact (untouched rfl).later rfl rfl (by simp [addPipe]) (Nat.le_refl _) (Nat.le_refl _)
  | stream =>
    exact (untouched rfl).later rfl rfl (by simp [openStream,addPipe]) (Nat.le_refl _) (Nat.le_refl _)
  | paint =>
    exact (untouched rfl).later rfl rfl (Nat.le_of_eq Array.size_modify.symm) (Nat.le_refl _)
      (Nat.le_refl _)
  | retitle =>
    exact (untouched rfl).later rfl rfl (Nat.le_of_eq Array.size_modify.symm) (Nat.le_refl _)
      (Nat.le_refl _)
  | place s _ _ pipes =>
    exact (untouched rfl).later (by rw [addChain_eq]) (by rw [addChain_eq])
      (Nat.le_of_eq (pipes_size_addChain s pipes).symm) (by simp [addChain_eq]) (by simp [addChain_eq])
  | append =>
    exact (untouched rfl).later rfl rfl (Nat.le_refl _) (by simp [Session.append])
      (by simp [Session.append])
  | connect s _ _ i pipes =>
    obtain ⟨table,size,record⟩ := putOutputs_eq s i pipes
    exact (untouched rfl).later (by rw [record]) (by rw [record]) (by simp [record,size])
      (by simp [record]) (by simp [record])
  | output =>
    exact (untouched rfl).later rfl rfl (by simp [addOutput,addAnonymous,modifyStage])
      (Nat.le_of_eq Array.size_modify.symm) (Nat.le_refl _)
  | splice =>
    exact (untouched rfl).later rfl rfl (Nat.le_refl _) (by simp [Session.splice]) (Nat.le_refl _)
  | arguments =>
    exact (untouched rfl).later rfl rfl (Nat.le_refl _) (Nat.le_refl _)
      (Nat.le_of_eq Array.size_modify.symm)
  | hold =>
    exact (untouched rfl).later rfl rfl (Nat.le_refl _) (by simp [Session.hold])
      (by simp [Session.hold])
  | turn _ _ turn => exact turn.later sound

theorem Moves.later {l m : Ledger} (moves : Moves l m) (kept : l.Kept) :
    Later l.session m.session := by
  induction moves with
  | refl => exact .refl _
  | tail moves move ih => exact ih.trans (move.later (Moves.kept moves kept).1)

theorem Closing.later {l m : Ledger} (closing : Closing l m) (sound : Sound l.session l.pending) :
    Later l.session m.session := by
  cases closing with
  | leave s _ _ p =>
    have record := addReader_eq p .exported s
    exact (Untouched.of_addReader p .exported).later (by rw [record]) (by rw [record])
      (by simp [record]) (by simp [record]) (by simp [record])
  | close =>
    exact Untouched.later ⟨fun _ => rfl,fun _ _ => rfl⟩ rfl rfl (Nat.le_refl _) (Nat.le_refl _)
      (Nat.le_refl _)
  | move _ _ move => exact move.later sound

theorem Closings.later {l m : Ledger} (closings : Closings l m) (kept : l.Kept) :
    Later l.session m.session := by
  induction closings with
  | refl => exact .refl _
  | tail closings closing ih => exact ih.trans (closing.later (Closings.kept closings kept).1)

theorem outer_of_output {s : Session} {pending : List Nat} (sound : Sound s pending) {i p : Nat}
    (other : ¬ s.Made i) (member : p ∈ (s.stage i).outputs) : s.OuterPipe p := by
  refine ⟨sound.feeding.inside member,?_⟩
  rintro ⟨j,made,listed⟩
  exact other (sound.feeding.unique j i p listed member ▸ made)

theorem not_branch_of_outside {s : Session} {pending : List Nat} (sound : Sound s pending) {p : Nat}
    (outside : s.pipes.size ≤ p) : ¬ s.Branch p := by
  rintro ⟨i,_,member⟩
  have := sound.feeding.inside member
  omega

theorem outer_of_holds {s : Session} {pending : List Nat} (sound : Sound s pending) {i o : Nat}
    (outer : ¬ s.Made i) (holds : (s.stage i).operation = some o) : s.OuterOperation o := by
  refine ⟨sound.holding.inside i o holds,fun j made held => ?_⟩
  exact outer (sound.holding.unique j i o held holds ▸ made)

end MediaGraph.Session
