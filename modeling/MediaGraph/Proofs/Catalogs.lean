import MediaGraph.Catalog.Basic

/-! Catalogs by what they know.
A table is settled by its look-ups, since its keys ascend. Filters that were collected in a catalog
of their own add to another one what they would have added one by one. -/
namespace MediaGraph

namespace Table
variable {α : Type} {a b : Table α}

def Sorted (table : Table α) : Prop := table.Pairwise fun first second => first.1 < second.1

theorem mem_insert {key : String} {value : α} {entry : String × α}
    (member : entry ∈ insert key value a) : entry = (key,value) ∨ entry ∈ a := by
  induction a with
  | nil => exact Or.inl (List.mem_singleton.mp member)
  | cons pair rest ih =>
    obtain ⟨k,v⟩ := pair
    unfold insert at member
    split at member
    · exact List.mem_cons.mp member
    split at member
    · exact (List.mem_cons.mp member).imp_right (List.mem_cons_of_mem _)
    · rcases List.mem_cons.mp member with rfl | later
      · exact Or.inr List.mem_cons_self
      · exact (ih later).imp_right (List.mem_cons_of_mem _)

theorem Sorted.insert (sorted : a.Sorted) (key : String) (value : α) :
    (insert key value a).Sorted := by
  induction a with
  | nil => exact List.pairwise_singleton ..
  | cons pair rest ih =>
    obtain ⟨k,v⟩ := pair
    obtain ⟨above,ordered⟩ := List.pairwise_cons.mp sorted
    unfold Table.insert
    split
    next before =>
      refine List.pairwise_cons.mpr ⟨fun entry member => ?_,sorted⟩
      rcases List.mem_cons.mp member with rfl | later
      · exact before
      · exact String.lt_trans before (above entry later)
    next notBefore =>
      split
      next same => exact List.pairwise_cons.mpr ⟨same ▸ above,ordered⟩
      next other =>
        refine List.pairwise_cons.mpr ⟨fun entry member => ?_,ih ordered⟩
        rcases mem_insert member with rfl | later
        · exact Std.lt_of_le_of_ne (String.not_lt.mp notBefore) (Ne.symm other)
        · exact above entry later

theorem find?_below {key : String} (above : ∀ entry ∈ a, key < entry.1) : a.find? key = none := by
  induction a with
  | nil => rfl
  | cons pair rest ih =>
    have here := above pair List.mem_cons_self
    have different : pair.1 ≠ key := fun same => String.lt_irrefl key (same ▸ here)
    rw [find?,if_neg different]
    exact ih fun entry member => above entry (List.mem_cons_of_mem _ member)

theorem find?_head {k : String} {v : α} : find? ((k,v) :: a) k = some v := if_pos rfl

theorem Sorted.not_below {k key : String} {v value : α} (sorted : Sorted ((k,v) :: a))
    (found : find? ((k,v) :: a) key = some value) : ¬ key < k := by
  intro low
  obtain ⟨above,_⟩ := List.pairwise_cons.mp sorted
  rw [find?_below (List.forall_mem_cons.mpr
    ⟨low,fun entry member => String.lt_trans low (above entry member)⟩)] at found
  cases found

theorem Sorted.ext (left : a.Sorted) (right : b.Sorted)
    (same : ∀ key, a.find? key = b.find? key) : a = b := by
  induction a generalizing b with
  | nil =>
    cases b with
    | nil => rfl
    | cons pair rest =>
      have found := same pair.1
      rw [find?_head] at found
      cases found
  | cons pair rest ih =>
    obtain ⟨k,v⟩ := pair
    obtain ⟨above,ordered⟩ := List.pairwise_cons.mp left
    cases b with
    | nil =>
      have found := same k
      rw [find?_head] at found
      cases found
    | cons other more =>
      obtain ⟨l,w⟩ := other
      obtain ⟨beyond,sorted⟩ := List.pairwise_cons.mp right
      -- Each head is found in the other table, and so not below its first key.
      have first : k = l :=
        String.le_antisymm (String.not_lt.mp (left.not_below (same l ▸ find?_head)))
          (String.not_lt.mp (right.not_below (same k ▸ find?_head)))
      subst first
      have value : v = w := by simpa [find?_head] using same k
      subst value
      rw [ih ordered sorted fun key => ?_]
      by_cases equal : k = key
      · subst equal
        rw [find?_below above,find?_below beyond]
      · simpa [find?,equal] using same key

end Table

namespace Catalog

theorem extend_entries (catalog : Catalog) (specs : List FilterSpec) :
    (catalog.extend specs).entries = catalog.entries := by
  induction specs generalizing catalog with
  | nil => rfl
  | cons spec rest ih => exact ih (catalog.insert spec)

/-- The last filter of a name counts, and what the catalog knew before where there is none. -/
theorem find?_extend (catalog : Catalog) (specs : List FilterSpec) (name : String) :
    (catalog.extend specs).filters.find? name =
      (specs.reverse.find? fun spec => spec.name = name).or (catalog.filters.find? name) := by
  induction specs generalizing catalog with
  | nil => rfl
  | cons spec rest ih =>
    rw [extend,List.foldl_cons]
    refine (ih (catalog.insert spec)).trans ?_
    rw [List.reverse_cons,List.find?_append,Option.or_assoc,insert,Table.find?_insert]
    by_cases same : spec.name = name
    · simp [same]
    · simp [same,Ne.symm same]

/-- Filters that stand under their own names, in the order of these. -/
structure Filed (table : Table FilterSpec) : Prop where
  sorted : table.Sorted
  named : ∀ entry ∈ table, entry.2.name = entry.1

namespace Filed
variable {table : Table FilterSpec} {catalog : Catalog}

theorem extend (filed : Filed catalog.filters) (specs : List FilterSpec) :
    Filed (catalog.extend specs).filters := by
  induction specs generalizing catalog with
  | nil => exact filed
  | cons spec rest ih =>
    have added : Filed (catalog.insert spec).filters := by
      refine ⟨filed.sorted.insert spec.name spec,fun entry member => ?_⟩
      rcases Table.mem_insert member with rfl | old
      · rfl
      · exact filed.named entry old
    exact ih added

theorem last (filed : Filed table) (name : String) :
    ((table.map (·.2)).reverse.find? fun spec => spec.name = name) = table.find? name := by
  induction table with
  | nil => rfl
  | cons entry rest ih =>
    obtain ⟨key,spec⟩ := entry
    obtain ⟨above,ordered⟩ := List.pairwise_cons.mp filed.sorted
    have own : spec.name = key := filed.named (key,spec) List.mem_cons_self
    have later := ih ⟨ordered,fun entry member => filed.named entry (List.mem_cons_of_mem _ member)⟩
    rw [List.map_cons,List.reverse_cons,List.find?_append,later,Table.find?]
    by_cases same : key = name
    · subst same
      simp [own,Table.find?_below above]
    · simp [own,same]

end Filed

theorem empty_filed : Filed empty.filters := ⟨.nil,fun _ member => nomatch member⟩

theorem builtin_filed : Filed builtin.filters := empty_filed.extend builtinFilters

theorem extend_collected {catalog : Catalog} (filed : Filed catalog.filters)
    (specs : List FilterSpec) :
    catalog.extend ((empty.extend specs).filters.map (·.2)) = catalog.extend specs := by
  have collected := empty_filed.extend specs
  have filters : (catalog.extend ((empty.extend specs).filters.map (·.2))).filters =
      (catalog.extend specs).filters := by
    refine (filed.extend _).sorted.ext (filed.extend _).sorted fun name => ?_
    rw [find?_extend,find?_extend,collected.last,find?_extend]
    simp [empty,Table.find?]
  have entries := (extend_entries catalog ((empty.extend specs).filters.map (·.2))).trans
    (extend_entries catalog specs).symm
  exact (Catalog.mk.injEq ..).mpr ⟨filters,entries⟩

end Catalog
end MediaGraph
