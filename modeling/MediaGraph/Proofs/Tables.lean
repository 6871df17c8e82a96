import MediaGraph.Proofs.Build

/-! What the steps of a session leave in its tables.
A step is written as the one record that the updates of a call come to, and is
looked at through `pipe`, `reader`, `operation` and `stage`. -/
namespace MediaGraph.Session

section Arrays
variable {α : Type}

theorem getD_push (xs : Array α) (x d : α) (i : Nat) :
    ((xs.push x)[i]?).getD d = if i = xs.size then x else (xs[i]?).getD d := by
  rw [Array.getElem?_push]
  split <;> rfl

theorem getD_modify (xs : Array α) (f : α → α) (d : α) (i j : Nat) :
    ((xs.modify i f)[j]?).getD d =
      if j = i ∧ j < xs.size then f ((xs[j]?).getD d) else (xs[j]?).getD d := by
  rw [Array.getElem?_modify]
  by_cases same : i = j
  · subst same
    by_cases bound : i < xs.size <;> simp [bound]
  · simp [same,Ne.symm same]

theorem getD_modify_at (xs : Array α) (f : α → α) (d : α) (i j : Nat) (inside : i < xs.size) :
    ((xs.modify i f)[j]?).getD d = if j = i then f ((xs[j]?).getD d) else (xs[j]?).getD d := by
  rw [getD_modify]
  by_cases same : j = i
  · subst same
    rw [if_pos ⟨rfl,inside⟩,if_pos rfl]
  · rw [if_neg (fun both => same both.1),if_neg same]

theorem getD_bound (xs : Array α) (d : α) (i : Nat) (other : (xs[i]?).getD d ≠ d) : i < xs.size := by
  rcases Nat.lt_or_ge i xs.size with bound | outside
  · exact bound
  · simp [Array.getElem?_eq_none outside] at other

theorem modify_congr (xs : Array α) (f g : α → α) (d : α) (i : Nat)
    (same : f ((xs[i]?).getD d) = g ((xs[i]?).getD d)) : xs.modify i f = xs.modify i g := by
  apply Array.ext_getElem?
  intro j
  rw [Array.getElem?_modify,Array.getElem?_modify]
  split
  next equal =>
    subst equal
    cases found : xs[i]? with
    | none => rfl
    | some x => simpa [found] using same
  next => rfl

theorem modify_same (xs : Array α) (i : Nat) : xs.modify i id = xs := by
  apply Array.ext_getElem?
  intro j
  rw [Array.getElem?_modify]
  split <;> simp

theorem modify_push (xs : Array α) (x : α) (f : α → α) :
    (xs.push x).modify xs.size f = xs.push (f x) := by
  apply Array.ext_getElem?
  intro j
  rw [Array.getElem?_modify,Array.getElem?_push,Array.getElem?_push]
  by_cases last : j = xs.size
  · simp [last]
  · simp [last,Ne.symm last]

theorem modify_push_other (xs : Array α) (x : α) (f : α → α) (i : Nat) (bound : i < xs.size) :
    (xs.push x).modify i f = (xs.modify i f).push x := by
  apply Array.ext_getElem?
  intro j
  simp only [Array.getElem?_modify,Array.getElem?_push,Array.size_modify]
  split <;> grind

theorem modify_modify (xs : Array α) (f g : α → α) (i : Nat) :
    (xs.modify i f).modify i g = xs.modify i (g ∘ f) := by
  apply Array.ext_getElem?
  intro j
  simp only [Array.getElem?_modify]
  split <;> simp [*]

end Arrays

theorem filter_eq_singleton {list : List Nat} {keep : Nat → Bool} {x : Nat} (once : list.Nodup)
    (only : ∀ y, y ∈ list ∧ keep y = true ↔ y = x) : list.filter keep = [x] := by
  have members (y : Nat) : y ∈ list.filter keep ↔ y = x := by
    rw [List.mem_filter]
    exact only y
  have distinct := once.filter keep
  cases found : list.filter keep with
  | nil =>
    have member := (members x).mpr rfl
    simp [found] at member
  | cons first rest =>
    rw [found] at members distinct
    have equal : first = x := (members first).mp (by simp)
    cases rest with
    | nil => rw [equal]
    | cons second rest =>
      have same : second = x := (members second).mp (by simp)
      simp [equal,same] at distinct

/-! Readers are kept track of by their pipes. -/

def note (more : List Nat) (pipe : Pipe) : Pipe :=
  if pipe.shared then pipe else { pipe with readers := pipe.readers ++ more }

section Kept
variable (more : List Nat) (pipe : Pipe)

@[simp]
theorem note_name : (note more pipe).name = pipe.name := by unfold note; split <;> rfl

@[simp]
theorem note_fixed : (note more pipe).fixed = pipe.fixed := by unfold note; split <;> rfl

@[simp]
theorem note_media : (note more pipe).media = pipe.media := by unfold note; split <;> rfl

@[simp]
theorem note_fed : (note more pipe).fed = pipe.fed := by unfold note; split <;> rfl

@[simp]
theorem note_taken : (note more pipe).taken = pipe.taken := by unfold note; split <;> rfl

@[simp]
theorem note_shared : (note more pipe).shared = pipe.shared := by unfold note; split <;> rfl

@[simp]
theorem note_splitter : (note more pipe).splitter = pipe.splitter := by unfold note; split <;> rfl

theorem note_readers (own : pipe.shared = false) :
    (note more pipe).readers = pipe.readers ++ more := by simp [note,own]

end Kept

theorem note_nil (pipe : Pipe) : note [] pipe = pipe := by
  unfold note
  split <;> simp

theorem note_note (first second : List Nat) (pipe : Pipe) :
    note second (note first pipe) = note (first ++ second) pipe := by
  by_cases shared : pipe.shared <;> simp [note,shared]

theorem addReader_eq (p : Nat) (owner : Owner) (s : Session) :
    s.addReader p owner =
      { s with
        readers := s.readers.push ⟨p,owner,false⟩
        pipes := s.pipes.modify p (note [s.readers.size]) } := by
  by_cases shared : (s.pipe p).shared
  · have same : note [s.readers.size] (s.pipe p) = id (s.pipe p) := if_pos shared
    rw [modify_congr s.pipes _ id (Pipe.anonymous "") p same,modify_same]
    exact if_pos shared
  · let noted (pipe : Pipe) := { pipe with readers := pipe.readers ++ [s.readers.size] }
    have same : note [s.readers.size] (s.pipe p) = noted (s.pipe p) := if_neg shared
    rw [modify_congr s.pipes _ noted (Pipe.anonymous "") p same]
    exact if_neg shared

def noteAll : Nat → List Nat → Array Pipe → Array Pipe
  | _, [], pipes => pipes
  | r, p :: rest, pipes => noteAll (r + 1) rest (pipes.modify p (note [r]))

/-- The numbers from `r` on of the readers that were put on pipe `q`. -/
def placesOf (q : Nat) : Nat → List Nat → List Nat
  | _, [] => []
  | r, p :: rest => if p = q then r :: placesOf q (r + 1) rest else placesOf q (r + 1) rest

theorem mem_placesOf (q r : Nat) (pipes : List Nat) (x : Nat) :
    x ∈ placesOf q r pipes ↔ ∃ k, pipes[k]? = some q ∧ x = r + k := by
  induction pipes generalizing r with
  | nil => simp [placesOf]
  | cons p rest ih =>
    have shift : (∃ k, (p :: rest)[k]? = some q ∧ x = r + k) ↔
        (p = q ∧ x = r) ∨ ∃ k, rest[k]? = some q ∧ x = (r + 1) + k := by
      constructor
      · rintro ⟨k,found,rfl⟩
        cases k with
        | zero => exact Or.inl ⟨by simpa using found,rfl⟩
        | succ k => exact Or.inr ⟨k,by simpa using found,by omega⟩
      · rintro (⟨rfl,rfl⟩ | ⟨k,found,rfl⟩)
        · exact ⟨0,rfl,rfl⟩
        · exact ⟨k + 1,by simpa using found,by omega⟩
    rw [shift,placesOf]
    split
    next same => simp [ih,same]
    next other => simp [ih,other]

theorem placesOf_nodup (q r : Nat) (pipes : List Nat) : (placesOf q r pipes).Nodup := by
  induction pipes generalizing r with
  | nil => exact List.nodup_nil
  | cons p rest ih =>
    rw [placesOf]
    split
    · refine List.nodup_cons.mpr ⟨?_,ih (r + 1)⟩
      rw [mem_placesOf]
      rintro ⟨k,_,equal⟩
      omega
    · exact ih (r + 1)

theorem getD_noteAll (r q : Nat) (list : List Nat) (pipes : Array Pipe) (d : Pipe)
    (bound : q < pipes.size) :
    ((noteAll r list pipes)[q]?).getD d = note (placesOf q r list) ((pipes[q]?).getD d) := by
  induction list generalizing r pipes with
  | nil => simp [noteAll,placesOf,note_nil]
  | cons p rest ih =>
    rw [noteAll,ih (r + 1) _ (by simpa using bound),getD_modify,placesOf]
    by_cases same : q = p
    · rw [if_pos ⟨same,bound⟩,if_pos same.symm,note_note]
      rfl
    · rw [if_neg (fun both => same both.1),if_neg (Ne.symm same)]

theorem noteAll_size (r : Nat) (list : List Nat) (pipes : Array Pipe) :
    (noteAll r list pipes).size = pipes.size := by
  induction list generalizing r pipes with
  | nil => rfl
  | cons p rest ih => simp [noteAll,ih]

theorem addReaders_eq (stage : Nat) (list : List Nat) (s : Session) :
    s.addReaders stage list =
      { s with
        readers := s.readers ++ (list.map fun p => (⟨p,.stage stage,false⟩ : Reader)).toArray
        pipes := noteAll s.readers.size list s.pipes } := by
  induction list generalizing s with
  | nil => simp [addReaders,noteAll]
  | cons p rest ih =>
    rw [addReaders,ih,addReader_eq]
    simp [noteAll]

end MediaGraph.Session
