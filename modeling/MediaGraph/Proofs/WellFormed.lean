import MediaGraph.Proofs.Pads
import MediaGraph.Proofs.Plans
import MediaGraph.Proofs.Runs

/-! The shape of a completed graph.
The check at the end looks at two flags and a name for each pipe; that they stand for
one pad on each side is what every call has kept. -/
namespace MediaGraph.Session

/-- Each link has one end on each side. Input streams come in from outside, and are the
only pipes that more than one pad may read. -/
structure WellFormed (s : Session) : Prop where
  inputs : ∀ p ∈ s.inputPads, (s.pipe p).shared = false →
    s.inputPads.count p = 1 ∧ s.outputPads.count p = 1
  outputs : ∀ p ∈ s.outputPads,
    s.outputPads.count p = 1 ∧ s.inputPads.count p + s.exportPads.count p = 1
  streams : ∀ p, (s.pipe p).shared = true →
    p ∉ s.outputPads ∧ ∀ spec, s.streams.lookup spec = some p ↔ spec = (s.pipe p).name
  names : ∀ p ∈ s.inputPads ++ s.outputPads, ∀ q ∈ s.inputPads ++ s.outputPads,
    (s.pipe p).name = (s.pipe q).name → p = q

section Checks

theorem nameClash_none {seen pipes : List Pipe} (clear : nameClash seen pipes = none) :
    pipes.Pairwise (fun p q => (p.fed || p.taken) = true → (q.fed || q.taken) = true →
      p.name ≠ q.name) ∧
      ∀ p ∈ pipes, (p.fed || p.taken) = true → ∀ q ∈ seen, q.name ≠ p.name := by
  induction pipes generalizing seen with
  | nil => simp
  | cons p rest ih =>
    unfold nameClash at clear
    by_cases used : (p.fed || p.taken) = true
    · rw [if_pos used] at clear
      cases found : seen.find? fun q => q.name == p.name with
      | some q => simp [found] at clear
      | none =>
        rw [found] at clear
        obtain ⟨apart,free⟩ := ih clear
        refine ⟨List.pairwise_cons.mpr ⟨fun q member _ uses => ?_,apart⟩,fun q member uses => ?_⟩
        · exact free q member uses p (by simp)
        · rcases List.mem_cons.mp member with rfl | later
          · simpa using found
          · exact fun other before => free q later uses other (by simp [before])
    · rw [if_neg used] at clear
      obtain ⟨apart,free⟩ := ih clear
      refine ⟨List.pairwise_cons.mpr ⟨fun _ _ uses => absurd uses used,apart⟩,fun q member uses => ?_⟩
      rcases List.mem_cons.mp member with rfl | later
      · exact absurd uses used
      · exact free q later uses

/-- What the check at the end has seen to. -/
structure Checked (s : Session) : Prop where
  names : ∀ p q, ((s.pipe p).fed || (s.pipe p).taken) = true →
    ((s.pipe q).fed || (s.pipe q).taken) = true → (s.pipe p).name = (s.pipe q).name → p = q
  ends : ∀ p, (s.pipe p).shared = false → (s.pipe p).fed = (s.pipe p).taken

variable {s t : Session}

theorem inside_of_used {p : Nat} (used : ((s.pipe p).fed || (s.pipe p).taken) = true) :
    p < s.pipes.size := by
  refine getD_bound s.pipes (.anonymous "") p fun same => ?_
  rw [pipe,same] at used
  simp [Pipe.anonymous] at used

theorem validate_ok (valid : s.validate = .ok ()) : s.Checked := by
  unfold validate at valid
  cases clash : nameClash [] s.pipes.toList with
  | some pair => simp [clash] at valid
  | none =>
    cases loose : dangling s.pipes.toList with
    | some p => simp [clash,loose] at valid
    | none =>
      have at_ (p : Nat) (inside : p < s.pipes.size) : s.pipes[p] = s.pipe p := by
        simp [pipe,inside]
      have apart := List.pairwise_iff_getElem.mp (nameClash_none clash).1
      constructor
      · intro p q usedP usedQ same
        have insideP := inside_of_used usedP
        have insideQ := inside_of_used usedQ
        rcases Nat.lt_trichotomy p q with before | equal | after
        · have differ := apart p q (by simpa) (by simpa) before
          simp only [Array.getElem_toList,at_] at differ
          exact absurd same (differ usedP usedQ)
        · exact equal
        · have differ := apart q p (by simpa) (by simpa) after
          simp only [Array.getElem_toList,at_] at differ
          exact absurd same.symm (differ usedQ usedP)
      · intro p own
        by_cases inside : p < s.pipes.size
        · have even := List.find?_eq_none.mp loose (s.pipe p)
            (by rw [← at_ p inside]; simp)
          simpa [own] using even
        · have outside : s.pipe p = .anonymous "" := by simp [pipe,inside]
          simp [outside,Pipe.anonymous]

theorem Checked.wellFormed (checked : s.Checked) (sound : Sound s []) : s.WellFormed := by
  have fed (p : Nat) (member : p ∈ s.outputPads) :
      (s.pipe p).fed = true ∧ (s.pipe p).shared = false := by
    obtain ⟨i,listed⟩ := (mem_outputPads sound).mp member
    exact ⟨sound.feeding.fed i p listed,sound.feeding.own i p listed⟩
  have taken (p : Nat) (member : p ∈ s.inputPads) (own : (s.pipe p).shared = false) :
      (s.pipe p).taken = true :=
    taken_of_mem sound own (by simp [member])
  have used (p : Nat) (member : p ∈ s.inputPads ++ s.outputPads) :
      ((s.pipe p).fed || (s.pipe p).taken) = true := by
    rcases List.mem_append.mp member with reads | feeds
    · cases kind : (s.pipe p).shared with
      | false => simp [taken p reads kind]
      | true => simp [sound.feeding.outside p kind]
    · simp [(fed p feeds).1]
  constructor
  · intro p member own
    have reads := taken p member own
    obtain ⟨i,listed⟩ := sound.feeding.feeder p ((checked.ends p own).trans reads) own
    have one := readers_count sound own reads
    have some := List.count_pos_iff.mpr member
    exact ⟨by omega,List.count_eq_one_of_mem (outputPads_nodup sound)
      ((mem_outputPads sound).mpr ⟨i,listed⟩)⟩
  · intro p member
    obtain ⟨feeds,own⟩ := fed p member
    exact ⟨List.count_eq_one_of_mem (outputPads_nodup sound) member,
      readers_count sound own ((checked.ends p own).symm.trans feeds)⟩
  · intro p shared
    refine ⟨fun member => ?_,fun spec => ⟨fun found => ?_,?_⟩⟩
    · exact absurd shared (by simp [(fed p member).2])
    · exact (sound.naming.known spec p found).2.symm
    · rintro rfl
      exact (sound.naming.stream p shared).2
  · intro p memberP q memberQ same
    exact checked.names p q (used p memberP) (used q memberQ) same

end Checks

open Account in
/-- However a session was built, what completing it shows is well formed: the labels of
its segments are the names of the pipes on its pads, and these match up. -/
theorem complete_wellFormed {catalog : Catalog} {a : Account} {exports : List (String × PipeId)}
    {t : Session} (reached : Reached catalog a) (known : a.Knows (.complete exports))
    (completed : complete exports a.session = .ok () t) :
    t.chains.flatten.flatMap Segment.inputs = t.inputPads.map (fun p => (t.pipe p).name) ∧
      t.chains.flatten.flatMap Segment.outputs = t.outputPads.map (fun p => (t.pipe p).name) ∧
      t.WellFormed := by
  refine ⟨t.inputLabels,t.outputLabels,?_⟩
  have consistent := reached.consistent.after (c := .complete exports) known completed
  obtain ⟨_,v,_,valid,rfl⟩ := complete_ok.mp completed
  have checked := validate_ok valid
  exact Checked.wellFormed ⟨checked.names,checked.ends⟩ consistent.kept.1

open Account in
theorem complete_wellFormed_twice : ∃ a t, run? scaledSource (.new 0 .empty) = some a ∧
    complete [("a",⟨0,1⟩),("b",⟨0,1⟩)] a.session = .ok () t ∧
    t.chains.flatten.flatMap Segment.inputs = t.inputPads.map (fun p => (t.pipe p).name) ∧
    t.chains.flatten.flatMap Segment.outputs = t.outputPads.map (fun p => (t.pipe p).name) ∧
    t.WellFormed := by
  obtain ⟨a,t,before,known,completed⟩ := scaledSource_completes
  exact ⟨a,t,before,completed,complete_wellFormed ((Reached.new 0).run before) known completed⟩

end MediaGraph.Session
