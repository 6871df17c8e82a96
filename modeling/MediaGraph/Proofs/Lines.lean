import MediaGraph.Text.Blank
import Mathlib.Data.List.TakeDrop
import Mathlib.Data.List.TakeWhile

/-! Blanks at the ends of a text, and the lines of a text.
What is passed over at the front, taken from it or trimmed is a way to cut the text in two or three
that there is no other of. -/
namespace MediaGraph.Text

/-- Whatever comes first does not satisfy `p`. -/
def Stops (p : Char → Bool) (s : List Char) : Prop := ∀ c ∈ s.head?, p c = false

def Blank (s : List Char) : Prop := ∀ c ∈ s, isBlank c = true

structure Trimmed (s : List Char) : Prop where
  front : Stops isBlank s
  back : Stops isBlank s.reverse

instance (p : Char → Bool) : DecidablePred (Stops p) := fun s =>
  decidable_of_iff (s.head?.all (!p ·) = true) (by cases s <;> simp [Stops])

instance : DecidablePred Blank := fun s => decidable_of_iff (s.all isBlank = true) List.all_eq_true

instance : DecidablePred Trimmed := fun s =>
  decidable_of_iff (Stops isBlank s ∧ Stops isBlank s.reverse)
    ⟨fun holds => ⟨holds.1,holds.2⟩,fun trimmed => ⟨trimmed.front,trimmed.back⟩⟩

section Pieces
variable {p : Char → Bool} {s found rest : List Char}

theorem Stops.nil : Stops p [] := nofun

theorem stops_cons {c : Char} : Stops p (c :: s) ↔ p c = false := by simp [Stops]

theorem stops_of_all (all : ∀ c ∈ s, p c = false) : Stops p s :=
  fun c first => all c (List.mem_of_mem_head? first)

theorem forall_false_of_all (all : s.all (!p ·) = true) : ∀ c ∈ s, p c = false := by simpa using all

theorem Stops.of_append (stops : Stops p (s ++ rest)) : Stops p s := by
  cases s with
  | nil => exact .nil
  | cons c more => exact stops_cons.mpr (stops_cons.mp stops)

theorem Stops.append (stops : Stops p s) (some : s ≠ []) : Stops p (s ++ rest) := by
  cases s with
  | nil => exact absurd rfl some
  | cons c more => exact stops_cons.mpr (stops_cons.mp stops)

theorem stops_dropWhile : Stops p (s.dropWhile p) := by
  induction s with
  | nil => exact .nil
  | cons c more ih =>
    cases same : p c with
    | true => rwa [List.dropWhile_cons_of_pos same]
    | false => rwa [List.dropWhile_cons_of_neg (by simp [same]),stops_cons]

theorem dropWhile_of_stops (stops : Stops p s) : s.dropWhile p = s := by
  cases s with
  | nil => rfl
  | cons c more => exact List.dropWhile_cons_of_neg (by simp [stops_cons.mp stops])

theorem takeWhile_of_stops (stops : Stops p s) : s.takeWhile p = [] := by
  cases s with
  | nil => rfl
  | cons c more => exact List.takeWhile_cons_of_neg (by simp [stops_cons.mp stops])

theorem dropWhile_eq_iff : s.dropWhile p = rest ↔
    ∃ found, s = found ++ rest ∧ (∀ c ∈ found, p c = true) ∧ Stops p rest := by
  constructor
  · rintro rfl
    exact ⟨s.takeWhile p,List.takeWhile_append_dropWhile.symm,
      fun c inside => List.mem_takeWhile_imp inside,stops_dropWhile⟩
  · rintro ⟨found,rfl,all,stops⟩
    rw [List.dropWhile_append_of_pos all,dropWhile_of_stops stops]

theorem span_eq_iff : s.span p = (found,rest) ↔
    s = found ++ rest ∧ (∀ c ∈ found, p c = true) ∧ Stops p rest := by
  rw [List.span_eq_takeWhile_dropWhile,Prod.mk.injEq]
  constructor
  · rintro ⟨rfl,rfl⟩
    exact ⟨List.takeWhile_append_dropWhile.symm,fun c inside => List.mem_takeWhile_imp inside,
      stops_dropWhile⟩
  · rintro ⟨rfl,all,stops⟩
    rw [List.takeWhile_append_of_pos all,List.dropWhile_append_of_pos all,
      takeWhile_of_stops stops,dropWhile_of_stops stops]
    simp

theorem trimEnd_eq_iff {inner : List Char} : trimEnd s = inner ↔
    ∃ after, s = inner ++ after ∧ Blank after ∧ Stops isBlank inner.reverse := by
  rw [trimEnd,List.reverse_eq_iff,dropWhile_eq_iff]
  constructor
  · rintro ⟨found,same,blank,stops⟩
    exact ⟨found.reverse,by simpa using congrArg List.reverse same,
      fun c inside => blank c (List.mem_reverse.mp inside),stops⟩
  · rintro ⟨after,rfl,blank,stops⟩
    exact ⟨after.reverse,by simp,fun c inside => blank c (List.mem_reverse.mp inside),stops⟩

theorem trim_eq_iff {inner : List Char} : trim s = inner ↔
    ∃ before after, s = before ++ inner ++ after ∧ Blank before ∧ Blank after ∧ Trimmed inner := by
  rw [trim,trimEnd_eq_iff]
  constructor
  · rintro ⟨after,same,blank,back⟩
    obtain ⟨before,whole,all,front⟩ := dropWhile_eq_iff.mp same
    exact ⟨before,after,by rw [whole,List.append_assoc],all,blank,front.of_append,back⟩
  · rintro ⟨before,after,rfl,all,blank,trimmed⟩
    rw [List.append_assoc,List.dropWhile_append_of_pos all]
    cases inner with
    | nil =>
      have gone : after.dropWhile isBlank = [] := List.dropWhile_eq_nil_iff.mpr blank
      exact ⟨[],by simp [gone],nofun,.nil⟩
    | cons c more =>
      exact ⟨after,dropWhile_of_stops (trimmed.front.append (by simp)),blank,trimmed.back⟩

end Pieces

section Lines
variable {mark : Char} {piece rest : List Char}

theorem cut_piece (apart : mark ∉ piece) : cut mark piece = [piece] := by
  induction piece with
  | nil => rfl
  | cons c more ih =>
    simp only [List.mem_cons,not_or] at apart
    simp [cut,Ne.symm apart.1,ih apart.2]

theorem cut_append (apart : mark ∉ piece) :
    cut mark (piece ++ mark :: rest) = piece :: cut mark rest := by
  induction piece with
  | nil => simp [cut]
  | cons c more ih =>
    simp only [List.mem_cons,not_or] at apart
    simp [cut,Ne.symm apart.1,ih apart.2]

theorem lines_piece (apart : '\n' ∉ piece) : lines piece = if piece.isEmpty then [] else [piece] := by
  simp [lines,cut_piece apart]

theorem lines_append (apart : '\n' ∉ piece) :
    lines (piece ++ '\n' :: rest) = dropReturn piece :: lines rest := by
  have some := cut_ne_nil '\n' rest
  rw [lines,lines,cut_append apart,List.dropLast_cons_of_ne_nil some,List.map_cons,List.cons_append,
    List.getLast?_cons,List.getLast?_eq_some_getLast some]
  rfl

theorem lines_join {more : List (List Char)} (apart : '\n' ∉ piece) (some : more ≠ []) :
    lines (join ['\n'] (piece :: more)) = dropReturn piece :: lines (join ['\n'] more) := by
  cases more with
  | nil => exact absurd rfl some
  | cons next more => rw [join,List.append_assoc,List.singleton_append,lines_append apart]

theorem dropReturn_cases (line : List Char) :
    dropReturn line = line ∨ line = dropReturn line ++ ['\r'] := by
  rw [dropReturn]
  split
  next last =>
    right
    obtain ⟨front,rfl⟩ := List.getLast?_eq_some_iff.mp last
    simp
  next => exact .inl rfl

theorem trim_append (s : List Char) {after : List Char} (blank : Blank after) :
    trim (s ++ after) = trim s := by
  obtain ⟨before,behind,same,all,ends,trimmed⟩ := trim_eq_iff.mp (rfl : trim s = trim s)
  refine trim_eq_iff.mpr ⟨before,behind ++ after,?_,all,?_,trimmed⟩
  · nth_rewrite 1 [same]
    simp
  · exact fun c inside => (List.mem_append.mp inside).elim (ends c) (blank c)

theorem Blank.dropReturn {line : List Char} (blank : Blank line) : Blank (dropReturn line) := by
  rcases dropReturn_cases line with same | same
  · rwa [same]
  · rw [same] at blank
    exact fun c inside => blank c (by simp [inside])

end Lines

end MediaGraph.Text
