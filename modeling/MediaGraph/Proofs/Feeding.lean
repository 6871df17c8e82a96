import MediaGraph.Proofs.Steps

/-! Which stage feeds a pipe.
The flag that a pipe is fed stands for one output pad of one stage. A shared pipe
is fed from outside and lies on no output pad. -/
namespace MediaGraph.Session

/-- The pipes on output pads are the ones that are fed and not shared, and each
of them lies on one pad. -/
structure Feeding (s : Session) : Prop where
  working : ∀ i p, p ∈ (s.stage i).outputs → (s.stage i).operation ≠ none
  fed : ∀ i p, p ∈ (s.stage i).outputs → (s.pipe p).fed = true
  own : ∀ i p, p ∈ (s.stage i).outputs → (s.pipe p).shared = false
  feeder : ∀ p, (s.pipe p).fed = true → (s.pipe p).shared = false →
    ∃ i, p ∈ (s.stage i).outputs
  unique : ∀ i j p, p ∈ (s.stage i).outputs → p ∈ (s.stage j).outputs → i = j
  distinct : ∀ i, (s.stage i).outputs.toList.Nodup
  outside : ∀ p, (s.pipe p).shared = true → (s.pipe p).fed = true

theorem inside_of_fed {s : Session} {p : Nat} (fed : (s.pipe p).fed = true) : p < s.pipes.size := by
  refine getD_bound s.pipes (.anonymous "") p fun same => ?_
  rw [pipe,same] at fed
  simp [Pipe.anonymous] at fed

theorem inside_of_holds {s : Session} {i : Nat} (holds : (s.stage i).operation ≠ none) :
    i < s.stages.size := by
  refine getD_bound s.stages .empty i fun same => ?_
  rw [stage,same] at holds
  exact holds rfl

namespace Feeding
variable {s t : Session}

theorem inside (feeding : Feeding s) {i p : Nat} (member : p ∈ (s.stage i).outputs) :
    p < s.pipes.size :=
  inside_of_fed (feeding.fed i p member)

theorem of_new (serial : Nat) (catalog : Catalog) : Feeding (new serial catalog) := by
  have noStage (i : Nat) : (new serial catalog).stage i = .empty := rfl
  have noPipe (p : Nat) : (new serial catalog).pipe p = .anonymous "" := rfl
  constructor <;> simp [noStage,noPipe,Stage.empty,Pipe.anonymous]

theorem congr (feeding : Feeding s) (outputs : ∀ i, (t.stage i).outputs = (s.stage i).outputs)
    (working : ∀ i, (s.stage i).operation ≠ none → (t.stage i).operation ≠ none)
    (pipes : ∀ p, (t.pipe p).fed = (s.pipe p).fed ∧ (t.pipe p).shared = (s.pipe p).shared) :
    Feeding t where
  working i p member := working i (feeding.working i p (outputs i ▸ member))
  fed i p member := (pipes p).1.trans (feeding.fed i p (outputs i ▸ member))
  own i p member := (pipes p).2.trans (feeding.own i p (outputs i ▸ member))
  feeder p fed own := by
    obtain ⟨i,member⟩ := feeding.feeder p ((pipes p).1.symm.trans fed) ((pipes p).2.symm.trans own)
    exact ⟨i,(outputs i).symm ▸ member⟩
  unique i j p first second := feeding.unique i j p (outputs i ▸ first) (outputs j ▸ second)
  distinct i := (outputs i).symm ▸ feeding.distinct i
  outside p shared :=
    (pipes p).1.trans (feeding.outside p ((pipes p).2.symm.trans shared))

theorem of_pushOutput (feeding : Feeding s) {i : Nat} (holds : (s.stage i).operation ≠ none)
    (stages : ∀ j, t.stage j =
      if j = i then { s.stage j with outputs := (s.stage j).outputs.push s.pipes.size }
      else s.stage j)
    (pipes : ∀ p, p ≠ s.pipes.size →
      (t.pipe p).fed = (s.pipe p).fed ∧ (t.pipe p).shared = (s.pipe p).shared)
    (new : (t.pipe s.pipes.size).fed = true ∧ (t.pipe s.pipes.size).shared = false) :
    Feeding t := by
  have fresh (j : Nat) : s.pipes.size ∉ (s.stage j).outputs := fun member =>
    Nat.lt_irrefl _ (feeding.inside member)
  have outputs (j p : Nat) : p ∈ (t.stage j).outputs ↔
      p ∈ (s.stage j).outputs ∨ (j = i ∧ p = s.pipes.size) := by
    rw [stages]
    split
    next same => simp [same,Array.mem_push]
    next other => simp [other]
  have old (j p : Nat) (member : p ∈ (s.stage j).outputs) : p ≠ s.pipes.size := fun same =>
    fresh j (same ▸ member)
  constructor
  case working =>
    intro j p member
    rw [stages]
    rcases (outputs j p).mp member with before | ⟨rfl,rfl⟩
    · split
      · exact feeding.working j p before
      · exact feeding.working j p before
    · simpa using holds
  case fed =>
    intro j p member
    rcases (outputs j p).mp member with before | ⟨rfl,rfl⟩
    · exact (pipes p (old j p before)).1.trans (feeding.fed j p before)
    · exact new.1
  case own =>
    intro j p member
    rcases (outputs j p).mp member with before | ⟨rfl,rfl⟩
    · exact (pipes p (old j p before)).2.trans (feeding.own j p before)
    · exact new.2
  case feeder =>
    intro p fed own
    by_cases last : p = s.pipes.size
    · exact ⟨i,(outputs i p).mpr (Or.inr ⟨rfl,last⟩)⟩
    · obtain ⟨sameFed,sameShared⟩ := pipes p last
      obtain ⟨j,member⟩ := feeding.feeder p (sameFed.symm.trans fed) (sameShared.symm.trans own)
      exact ⟨j,(outputs j p).mpr (Or.inl member)⟩
  case unique =>
    intro j k p first second
    rcases (outputs j p).mp first with beforeJ | ⟨rfl,rfl⟩
    · rcases (outputs k p).mp second with beforeK | ⟨rfl,rfl⟩
      · exact feeding.unique j k p beforeJ beforeK
      · exact absurd beforeJ (fresh j)
    · rcases (outputs k _).mp second with beforeK | ⟨rfl,_⟩
      · exact absurd beforeK (fresh k)
      · rfl
  case distinct =>
    intro j
    rw [stages]
    split
    · rw [Array.toList_push]
      refine List.nodup_append.mpr ⟨feeding.distinct j,by simp,?_⟩
      intro p member q new
      rw [List.mem_singleton.mp new]
      exact old j p (Array.mem_toList_iff.mp member)
    · exact feeding.distinct j
  case outside =>
    intro p shared
    by_cases last : p = s.pipes.size
    · subst last
      exact new.1
    · obtain ⟨sameFed,sameShared⟩ := pipes p last
      exact sameFed.trans (feeding.outside p (sameShared.symm.trans shared))

theorem of_putOutputs (feeding : Feeding s) {i : Nat} {list : List Nat}
    (holds : (s.stage i).operation ≠ none) (bare : (s.stage i).outputs = #[])
    (distinct : list.Nodup) (inside : ∀ p ∈ list, p < s.pipes.size)
    (unfed : ∀ p ∈ list, (s.pipe p).fed = false) : Feeding (s.putOutputs i list) := by
  have stages (j : Nat) := stage_putOutputs s i list j (inside_of_holds holds)
  have pipes (p : Nat) := pipe_putOutputs s i list p
  have outputs (j p : Nat) : p ∈ ((s.putOutputs i list).stage j).outputs ↔
      p ∈ (s.stage j).outputs ∨ (j = i ∧ p ∈ list) := by
    rw [stages]
    split
    next same => simp [same,bare]
    next other => simp [other]
  have fed (p : Nat) : ((s.putOutputs i list).pipe p).fed = true ↔
      (s.pipe p).fed = true ∨ p ∈ list := by
    rw [pipes]
    split
    next both => simp [both.1]
    next other =>
      have apart : p ∉ list := fun member => other ⟨member,inside p member⟩
      simp [apart]
  have shared (p : Nat) : ((s.putOutputs i list).pipe p).shared = (s.pipe p).shared := by
    rw [pipes]
    split <;> rfl
  have own (p : Nat) (member : p ∈ list) : (s.pipe p).shared = false := by
    cases kind : (s.pipe p).shared with
    | false => rfl
    | true => simpa [feeding.outside p kind] using unfed p member
  have apart (j p : Nat) (member : p ∈ (s.stage j).outputs) : p ∉ list := fun listed => by
    simpa [feeding.fed j p member] using unfed p listed
  constructor
  case working =>
    intro j p member
    rw [stages]
    rcases (outputs j p).mp member with before | ⟨rfl,_⟩
    · split
      · exact feeding.working j p before
      · exact feeding.working j p before
    · simpa using holds
  case fed =>
    intro j p member
    rcases (outputs j p).mp member with before | ⟨_,listed⟩
    · exact (fed p).mpr (Or.inl (feeding.fed j p before))
    · exact (fed p).mpr (Or.inr listed)
  case own =>
    intro j p member
    rw [shared]
    rcases (outputs j p).mp member with before | ⟨_,listed⟩
    · exact feeding.own j p before
    · exact own p listed
  case feeder =>
    intro p isFed isOwn
    rw [shared] at isOwn
    rcases (fed p).mp isFed with before | listed
    · obtain ⟨j,member⟩ := feeding.feeder p before isOwn
      exact ⟨j,(outputs j p).mpr (Or.inl member)⟩
    · exact ⟨i,(outputs i p).mpr (Or.inr ⟨rfl,listed⟩)⟩
  case unique =>
    intro j k p first second
    rcases (outputs j p).mp first with beforeJ | ⟨rfl,listedJ⟩
    · rcases (outputs k p).mp second with beforeK | ⟨rfl,listedK⟩
      · exact feeding.unique j k p beforeJ beforeK
      · exact absurd listedK (apart j p beforeJ)
    · rcases (outputs k p).mp second with beforeK | ⟨rfl,_⟩
      · exact absurd listedJ (apart k p beforeK)
      · rfl
  case distinct =>
    intro j
    rw [stages]
    split
    · simpa using distinct
    · exact feeding.distinct j
  case outside =>
    intro p isShared
    rw [shared] at isShared
    exact (fed p).mpr (Or.inl (feeding.outside p isShared))

theorem of_stream (feeding : Feeding s) (stages : t.stages = s.stages)
    (pipes : ∀ p, p ≠ s.pipes.size → t.pipe p = s.pipe p)
    (new : (t.pipe s.pipes.size).fed = true ∧ (t.pipe s.pipes.size).shared = true) :
    Feeding t := by
  have same (i : Nat) : t.stage i = s.stage i := by rw [stage,stage,stages]
  have old (i p : Nat) (member : p ∈ (s.stage i).outputs) : t.pipe p = s.pipe p :=
    pipes p fun last => Nat.lt_irrefl _ (last ▸ feeding.inside member)
  constructor
  case working =>
    intro i p member
    rw [same] at member ⊢
    exact feeding.working i p member
  case fed =>
    intro i p member
    rw [same] at member
    rw [old i p member]
    exact feeding.fed i p member
  case own =>
    intro i p member
    rw [same] at member
    rw [old i p member]
    exact feeding.own i p member
  case feeder =>
    intro p fed own
    by_cases last : p = s.pipes.size
    · subst last
      simp [new.2] at own
    · rw [pipes p last] at fed own
      obtain ⟨i,member⟩ := feeding.feeder p fed own
      exact ⟨i,by rwa [same]⟩
  case unique =>
    intro i j p first second
    rw [same] at first second
    exact feeding.unique i j p first second
  case distinct =>
    intro i
    rw [same]
    exact feeding.distinct i
  case outside =>
    intro p shared
    by_cases last : p = s.pipes.size
    · subst last
      exact new.1
    · rw [pipes p last] at shared ⊢
      exact feeding.outside p shared

end Feeding
end MediaGraph.Session
