import MediaGraph.Proofs.Steps

/-! What pipes are called.
A name is chosen once or is still the generated one; the pipe of an input stream is
called by its specifier and is found under it. -/
namespace MediaGraph.Session

/-- A name that the graph makes up. -/
def Generated (name : String) : Prop := ∃ k : Nat, name = "_" ++ toString k

theorem freshName_generated (s : Session) : Generated s.freshName := ⟨s.counter,rfl⟩

theorem not_generated_of_head {name : String} (head : name.toList.head? ≠ some '_') :
    ¬ Generated name := by
  rintro ⟨k,rfl⟩
  exact head (by simp)

structure Naming (s : Session) : Prop where
  generated : ∀ p, p < s.pipes.size → (s.pipe p).fixed = false → Generated (s.pipe p).name
  stream : ∀ p, (s.pipe p).shared = true →
    (s.pipe p).fixed = true ∧ s.streams.lookup (s.pipe p).name = some p
  known : ∀ spec p, s.streams.lookup spec = some p →
    (s.pipe p).shared = true ∧ (s.pipe p).name = spec

theorem inside_of_shared {s : Session} {p : Nat} (shared : (s.pipe p).shared = true) :
    p < s.pipes.size := by
  refine getD_bound s.pipes (.anonymous "") p fun same => ?_
  rw [pipe,same] at shared
  simp [Pipe.anonymous] at shared

namespace Naming
variable {s t : Session}

theorem of_new (serial : Nat) (catalog : Catalog) : Naming (new serial catalog) := by
  have noPipe (p : Nat) : (new serial catalog).pipe p = .anonymous "" := rfl
  have noStream : (new serial catalog).streams = [] := rfl
  have size : (new serial catalog).pipes.size = 0 := rfl
  constructor <;> simp [noPipe,noStream,size,Pipe.anonymous]

theorem congr (naming : Naming s) (streams : t.streams = s.streams)
    (size : t.pipes.size = s.pipes.size)
    (pipes : ∀ p, (t.pipe p).name = (s.pipe p).name ∧ (t.pipe p).fixed = (s.pipe p).fixed ∧
      (t.pipe p).shared = (s.pipe p).shared) : Naming t := by
  constructor
  · intro p inside free
    obtain ⟨name,fixed,_⟩ := pipes p
    rw [name]
    exact naming.generated p (size ▸ inside) (fixed ▸ free)
  · intro p isShared
    obtain ⟨name,fixed,shared⟩ := pipes p
    rw [name,fixed,streams]
    exact naming.stream p (shared ▸ isShared)
  · intro spec p found
    obtain ⟨name,_,shared⟩ := pipes p
    rw [name,shared]
    exact naming.known spec p (streams ▸ found)

theorem of_called (naming : Naming s) {q : Nat} (streams : t.streams = s.streams)
    (size : t.pipes.size = s.pipes.size) (own : (s.pipe q).shared = false)
    (called : (t.pipe q).fixed = false → Generated (t.pipe q).name)
    (shared : (t.pipe q).shared = (s.pipe q).shared)
    (pipes : ∀ p, p ≠ q → (t.pipe p).name = (s.pipe p).name ∧
      (t.pipe p).fixed = (s.pipe p).fixed ∧ (t.pipe p).shared = (s.pipe p).shared) :
    Naming t := by
  constructor
  · intro p inside free
    by_cases same : p = q
    · subst same
      exact called free
    · obtain ⟨name,fixed,_⟩ := pipes p same
      rw [name]
      exact naming.generated p (size ▸ inside) (fixed ▸ free)
  · intro p isShared
    have other : p ≠ q := by
      rintro rfl
      simp [shared,own] at isShared
    obtain ⟨name,fixed,kept⟩ := pipes p other
    rw [name,fixed,streams]
    exact naming.stream p (kept ▸ isShared)
  · intro spec p found
    have known := naming.known spec p (streams ▸ found)
    have other : p ≠ q := by
      rintro rfl
      simp [own] at known
    obtain ⟨name,_,kept⟩ := pipes p other
    rw [name,kept]
    exact known

theorem push (naming : Naming s) (streams : t.streams = s.streams)
    (size : t.pipes.size = s.pipes.size + 1)
    (called : (t.pipe s.pipes.size).fixed = false → Generated (t.pipe s.pipes.size).name)
    (own : (t.pipe s.pipes.size).shared = false)
    (pipes : ∀ p, p ≠ s.pipes.size → (t.pipe p).name = (s.pipe p).name ∧
      (t.pipe p).fixed = (s.pipe p).fixed ∧ (t.pipe p).shared = (s.pipe p).shared) :
    Naming t := by
  constructor
  · intro p inside free
    by_cases last : p = s.pipes.size
    · subst last
      exact called free
    · obtain ⟨name,fixed,_⟩ := pipes p last
      rw [name]
      exact naming.generated p (by omega) (fixed ▸ free)
  · intro p isShared
    have other : p ≠ s.pipes.size := by
      rintro rfl
      simp [own] at isShared
    obtain ⟨name,fixed,kept⟩ := pipes p other
    rw [name,fixed,streams]
    exact naming.stream p (kept ▸ isShared)
  · intro spec p found
    have known := naming.known spec p (streams ▸ found)
    have other : p ≠ s.pipes.size := Nat.ne_of_lt (inside_of_shared known.1)
    obtain ⟨name,_,kept⟩ := pipes p other
    rw [name,kept]
    exact known

theorem of_stream (naming : Naming s) {spec : String} (unknown : s.streams.lookup spec = none)
    (streams : t.streams = (spec,s.pipes.size) :: s.streams)
    (size : t.pipes.size = s.pipes.size + 1)
    (new : t.pipe s.pipes.size = .ofStream spec)
    (pipes : ∀ p, p ≠ s.pipes.size → t.pipe p = s.pipe p) : Naming t := by
  constructor
  · intro p inside free
    by_cases last : p = s.pipes.size
    · subst last
      simp [new,Pipe.ofStream,Pipe.named] at free
    · rw [pipes p last] at free ⊢
      exact naming.generated p (by omega) free
  · intro p isShared
    by_cases last : p = s.pipes.size
    · subst last
      simp [new,streams,Pipe.ofStream,Pipe.named,Pipe.anonymous]
    · rw [pipes p last] at isShared ⊢
      obtain ⟨fixed,found⟩ := naming.stream p isShared
      have other : (s.pipe p).name ≠ spec := by
        intro same
        simp [same,unknown] at found
      refine ⟨fixed,?_⟩
      rw [streams,List.lookup_cons,beq_false_of_ne other]
      exact found
  · intro other p found
    rw [streams,List.lookup_cons] at found
    by_cases same : other = spec
    · subst same
      simp only [beq_self_eq_true] at found
      cases found
      simp [new,Pipe.ofStream,Pipe.named,Pipe.anonymous]
    · rw [beq_false_of_ne same] at found
      have known := naming.known other p found
      rw [pipes p (Nat.ne_of_lt (inside_of_shared known.1))]
      exact known

end Naming
end MediaGraph.Session
