import Mathlib.Data.List.Count
import MediaGraph.Proofs.Moves

/-! The pads that a graph shows.
Only stages with an operation are shown. Their pads are listed here by the pipes that
label them, together with the pipes that leave the graph. -/
namespace MediaGraph.Session

def printed (s : Session) : List Nat :=
  (s.heads.flatMap s.sequence).filter fun i => (s.stage i).operation.isSome

def inputPads (s : Session) : List Nat := s.printed.flatMap s.inputPipes

def outputPads (s : Session) : List Nat := s.printed.flatMap fun i => (s.stage i).outputs.toList

def leavers (s : Session) : List Nat :=
  (List.range s.readers.size).filter fun r => (s.reader r).owner = .exported

def exportPads (s : Session) : List Nat := s.leavers.map fun r => (s.reader r).pipe

section Labels
variable (s : Session)

theorem flatMap_chains (labels : Segment → List String) (pads : Nat → List Nat)
    (shown : ∀ i segment, s.segment? i = some segment →
      labels segment = (pads i).map fun p => (s.pipe p).name) :
    s.chains.flatten.flatMap labels =
      (s.printed.flatMap pads).map fun p => (s.pipe p).name := by
  have kept (stages : List Nat) : (stages.filterMap s.segment?).flatMap labels =
      ((stages.filter fun i => (s.stage i).operation.isSome).flatMap pads).map
        fun p => (s.pipe p).name := by
    induction stages with
    | nil => rfl
    | cons i rest ih =>
      cases held : (s.stage i).operation with
      | none =>
        have hidden : s.segment? i = none := by simp [segment?,operationAt,held]
        simp [hidden,held,ih]
      | some o =>
        obtain ⟨segment,seen⟩ : ∃ segment, s.segment? i = some segment := by
          simp [segment?,operationAt,held]
        simp [seen,held,ih,shown i segment seen]
  have all : s.chains.flatten = (s.heads.flatMap s.sequence).filterMap s.segment? := by
    rw [chains,List.flatten_filter_not_isEmpty,List.filterMap_flatMap]
    rfl
  rw [all,kept]
  rfl

/-- The labels before the operations are the names of the pipes on input pads. -/
theorem inputLabels : s.chains.flatten.flatMap Segment.inputs =
    s.inputPads.map fun p => (s.pipe p).name := by
  refine s.flatMap_chains _ _ fun i segment shown => ?_
  obtain ⟨op,_,rfl⟩ := Option.map_eq_some_iff.mp shown
  rfl

theorem outputLabels : s.chains.flatten.flatMap Segment.outputs =
    s.outputPads.map fun p => (s.pipe p).name := by
  refine s.flatMap_chains _ _ fun i segment shown => ?_
  obtain ⟨op,_,rfl⟩ := Option.map_eq_some_iff.mp shown
  rfl

end Labels

theorem Layout.mem_printed {s : Session} {chains : List (List Nat)} (layout : Layout s chains)
    {i : Nat} : i ∈ s.printed ↔ (s.stage i).operation ≠ none := by
  rw [printed,List.mem_filter,List.flatMap_def,layout.sequences_eq,layout.mem_flatten,
    Option.isSome_iff_ne_none]
  exact ⟨And.right,fun holds => ⟨inside_of_holds holds,holds⟩⟩

theorem Layout.printed_nodup {s : Session} {chains : List (List Nat)} (layout : Layout s chains) :
    s.printed.Nodup := by
  rw [printed,List.flatMap_def,layout.sequences_eq]
  exact layout.nodup.filter _

section Counts
variable {s : Session} {pending : List Nat}

theorem mem_printed (sound : Sound s pending) {i : Nat} :
    i ∈ s.printed ↔ (s.stage i).operation ≠ none := by
  obtain ⟨chains,layout⟩ := sound.layout
  exact layout.mem_printed

theorem printed_nodup (sound : Sound s pending) : s.printed.Nodup := by
  obtain ⟨chains,layout⟩ := sound.layout
  exact layout.printed_nodup

theorem mem_outputPads (sound : Sound s pending) {p : Nat} :
    p ∈ s.outputPads ↔ ∃ i, p ∈ (s.stage i).outputs := by
  simp only [outputPads,List.mem_flatMap,mem_printed sound,Array.mem_toList_iff]
  exact ⟨fun ⟨i,_,member⟩ => ⟨i,member⟩,fun ⟨i,member⟩ => ⟨i,sound.feeding.working i p member,member⟩⟩

theorem outputPads_nodup (sound : Sound s pending) : s.outputPads.Nodup := by
  refine List.nodup_flatMap.mpr ⟨fun i _ => sound.feeding.distinct i,?_⟩
  refine (printed_nodup sound).imp fun {i j} apart p first second => apart ?_
  exact sound.feeding.unique i j p (Array.mem_toList_iff.mp first) (Array.mem_toList_iff.mp second)

def users (s : Session) : List Nat :=
  (s.printed.flatMap fun i => (s.stage i).inputs) ++ s.leavers

theorem map_users (s : Session) :
    s.users.map (fun r => (s.reader r).pipe) = s.inputPads ++ s.exportPads := by
  rw [users,List.map_append,List.map_flatMap]
  rfl

theorem mem_users (sound : Sound s []) {r : Nat} :
    r ∈ s.users ↔ (s.reader r).resolved = true := by
  have active (bound : r < s.readers.size) : s.Active r ↔ (s.reader r).resolved = true := by
    simpa using sound.reading.active r bound
  simp only [users,leavers,List.mem_append,List.mem_flatMap,mem_printed sound,sound.reading.pads,
    List.mem_filter,List.mem_range,decide_eq_true_eq]
  constructor
  · rintro (⟨i,holds,bound,owner⟩ | ⟨bound,owner⟩)
    · exact (active bound).mp (by rw [Active,owner]; exact holds)
    · exact (active bound).mp (by rw [Active,owner]; trivial)
  · intro resolved
    have bound := inside_of_resolved resolved
    have acts := (active bound).mpr resolved
    unfold Active at acts
    cases owner : (s.reader r).owner with
    | stage i =>
      rw [owner] at acts
      exact .inl ⟨i,acts,bound,rfl⟩
    | exported => exact .inr ⟨bound,rfl⟩

theorem users_nodup (sound : Sound s []) : s.users.Nodup := by
  refine List.nodup_append.mpr ⟨List.nodup_flatMap.mpr ⟨fun i _ => sound.reading.distinct i,?_⟩,
    List.nodup_range.filter _,?_⟩
  · refine (printed_nodup sound).imp fun {i j} apart r first second => apart ?_
    have ownerI := ((sound.reading.pads i r).mp first).2
    have ownerJ := ((sound.reading.pads j r).mp second).2
    exact Owner.stage.inj (ownerI.symm.trans ownerJ)
  · rintro r placed _ leaves rfl
    obtain ⟨i,_,member⟩ := List.mem_flatMap.mp placed
    have owner := ((sound.reading.pads i r).mp member).2
    simp [leavers,owner] at leaves

theorem readers_count (sound : Sound s []) {p : Nat} (own : (s.pipe p).shared = false)
    (taken : (s.pipe p).taken = true) : s.inputPads.count p + s.exportPads.count p = 1 := by
  obtain ⟨r,takes⟩ := (sound.reading.taken p own).mp taken
  have only (x : Nat) : x ∈ s.users ∧ ((s.reader x).pipe == p) = true ↔ x = r := by
    rw [mem_users sound,beq_iff_eq]
    constructor
    · rintro ⟨resolved,points⟩
      exact sound.reading.sole p own x r ⟨resolved,by simp,points⟩ takes
    · rintro rfl
      exact ⟨takes.1,takes.2.2⟩
  rw [← List.count_append,← map_users,List.count_eq_countP,List.countP_map,
    List.countP_eq_length_filter]
  exact congrArg List.length (filter_eq_singleton (users_nodup sound) only)

theorem taken_of_mem (sound : Sound s []) {p : Nat} (own : (s.pipe p).shared = false)
    (member : p ∈ s.inputPads ++ s.exportPads) : (s.pipe p).taken = true := by
  rw [← map_users] at member
  obtain ⟨r,listed,points⟩ := List.mem_map.mp member
  exact (sound.reading.taken p own).mpr ⟨r,(mem_users sound).mp listed,by simp,points⟩

end Counts

end MediaGraph.Session
