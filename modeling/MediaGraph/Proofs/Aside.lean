import MediaGraph.Proofs.Exporting

/-! What goes on while others have their turns.
Media that are settled stay, whatever moves are made. The stages that turns of readers add
are splits, and none that is run comes off the list. -/
namespace MediaGraph.Session
open Relation

section Media
variable {s t u : Session} {p : Nat}

def Coloured (s t : Session) : Prop :=
  ∀ p, (s.pipe p).media ≠ .unknown → (t.pipe p).media = (s.pipe p).media

theorem Coloured.refl (s : Session) : Coloured s s := fun _ _ => rfl

theorem Coloured.trans (first : Coloured s t) (second : Coloured t u) : Coloured s u := by
  intro p known
  have same := first p known
  rw [second p (same ▸ known),same]

theorem inside_of_known (known : (s.pipe p).media ≠ .unknown) : p < s.pipes.size := by
  refine getD_bound s.pipes (.anonymous "") p fun same => known ?_
  rw [pipe,same]
  rfl

theorem Coloured.of_push {new : Pipe} (pipes : t.pipes = s.pipes.push new) : Coloured s t := by
  intro p known
  rw [pipe,pipes,getD_push,if_neg (Nat.ne_of_lt (inside_of_known known))]
  rfl

theorem Coloured.of_same (same : ∀ p, (t.pipe p).media = (s.pipe p).media) : Coloured s t :=
  fun p _ => same p

theorem Coloured.of_paint {media : Media} {hint : Option String}
    (kept : (s.pipe p).media ≠ .unknown → media = (s.pipe p).media) :
    Coloured s (s.paint p media hint) := by
  intro q known
  rw [paint,pipe_modifyPipe]
  split
  next same =>
    obtain ⟨rfl,_⟩ := same
    exact kept known
  next => rfl

theorem Turn.coloured {l m : Ledger} (turn : Turn l m) (sound : Sound l.session l.pending) :
    Coloured l.session m.session := by
  cases turn with
  | take s _ _ r _ free =>
    have inside := sound.reading.inside r (sound.reading.waiting r (by simp))
    refine .of_same fun q => ?_
    rw [pipe_takeDirect s r q inside]
    split
    · split <;> rfl
    · rfl
  | attach s _ _ r _ d name _ _ _ takes =>
    refine .of_same fun q => ?_
    rw [pipe_attach s _ name q (sound.reading.pipe_inside takes)]
    split
    · exact note_media ..
    · rfl
  | move s _ _ r _ i o =>
    intro q known
    rw [pipe_moveTo s i o r q (sound.reading.inside r (sound.reading.waiting r (by simp))),
      if_neg (Nat.ne_of_lt (inside_of_known known))]
    split <;> rfl

theorem Move.coloured {l m : Ledger} (move : Move l m) (sound : Sound l.session l.pending) :
    Coloured l.session m.session := by
  cases move with
  | anonymous => exact .of_push rfl
  | named => exact .of_push rfl
  | stream => exact .of_push rfl
  | paint _ _ _ _ _ _ kept => exact .of_paint kept
  | retitle s _ _ p name =>
    refine .of_same fun q => ?_
    rw [Session.retitle,pipe_modifyPipe]
    split <;> rfl
  | place s _ _ pipes inside =>
    refine .of_same fun q => ?_
    rw [pipe_addChain s inside]
    exact note_media ..
  | append => exact .refl _
  | connect s _ _ i pipes =>
    refine .of_same fun q => ?_
    rw [pipe_putOutputs]
    split <;> rfl
  | output => exact .of_push rfl
  | splice => exact .refl _
  | arguments => exact .refl _
  | hold => exact .refl _
  | turn _ _ turn => exact turn.coloured sound

theorem Moves.coloured {l m : Ledger} (moves : Moves l m) (kept : l.Kept) :
    Coloured l.session m.session := by
  induction moves with
  | refl => exact .refl _
  | tail moves move ih => exact ih.trans (move.coloured (Moves.kept moves kept).1)

theorem Closing.coloured {l m : Ledger} (closing : Closing l m) (kept : l.Kept) :
    Coloured l.session m.session := by
  cases closing with
  | leave s _ _ p =>
    refine .of_same fun q => ?_
    rw [pipe_addReader]
    split
    · exact note_media ..
    · rfl
  | close => exact .refl _
  | move _ _ move => exact move.coloured kept.1

theorem Closings.coloured {l m : Ledger} (closings : Closings l m) (kept : l.Kept) :
    Coloured l.session m.session := by
  induction closings with
  | refl => exact .refl _
  | tail closings closing ih =>
    exact ih.trans (closing.coloured (Closings.kept closings kept))

end Media

section Turns
variable {s t u : Session}

/-- Splits stay where they are, stages that were added are splits, and roots are kept. -/
structure Aside (s t : Session) : Prop where
  splitter : ∀ p i, (s.pipe p).splitter = some i → (t.pipe p).splitter = some i
  new : ∀ i, s.stages.size ≤ i → i < t.stages.size → t.Made i
  roots : ∀ i ∈ s.roots, i ∈ t.roots

theorem Aside.refl (s : Session) : Aside s s where
  splitter _ _ behind := behind
  new _ low high := absurd high (Nat.not_lt.mpr low)
  roots _ member := member

theorem Aside.trans (first : Aside s t) (second : Aside t u) : Aside s u where
  splitter p i behind := second.splitter p i (first.splitter p i behind)
  new i low high := by
    rcases Nat.lt_or_ge i t.stages.size with before | after
    · obtain ⟨p,behind⟩ := first.new i low before
      exact ⟨p,second.splitter p i behind⟩
    · exact second.new i after high
  roots i member := second.roots i (first.roots i member)

theorem Turn.aside {l m : Ledger} (turn : Turn l m) (sound : Sound l.session l.pending) :
    Aside l.session m.session := by
  constructor
  case splitter => exact fun _ _ behind => turn.splitter sound behind
  case new =>
    cases turn with
    | take => exact fun _ low high => absurd high (Nat.not_lt.mpr low)
    | attach s _ _ r _ _ name _ _ _ takes =>
      intro i low high
      have bound : i < s.stages.size + 1 := by simpa [Session.attach] using high
      have last : i = s.stages.size := Nat.le_antisymm (Nat.le_of_lt_succ bound) low
      refine ⟨(s.reader r).pipe,?_⟩
      rw [splitter_attach s _ name _ (sound.reading.pipe_inside takes),if_pos rfl,last]
    | move s _ _ r _ i o =>
      intro j low high
      have bound : j < s.stages.size := by simpa [Session.moveTo] using high
      exact absurd bound (Nat.not_lt.mpr low)
  case roots =>
    cases turn with
    | take => exact fun _ member => member
    | attach => exact fun i member => by simp [Session.attach,member]
    | move => exact fun _ member => member

theorem Turns.aside {l m : Ledger} (turns : Turns l m) (kept : l.Kept) :
    Aside l.session m.session := by
  induction turns with
  | refl => exact .refl _
  | tail turns turn ih =>
    exact ih.trans (turn.aside (Moves.kept (Turns.moves turns) kept).1)

end Turns
end MediaGraph.Session
