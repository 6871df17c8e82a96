/-! Tables kept in the order of their keys.
Keys ascend by code point and each occurs once; writing to a key replaces what
was there. -/
namespace MediaGraph

abbrev Table (α : Type) := List (String × α)

namespace Table

def insert {α : Type} (key : String) (value : α) : Table α → Table α
  | [] => [(key, value)]
  | (k, v) :: rest =>
    if key < k then (key, value) :: (k, v) :: rest
    else if key = k then (key, value) :: rest
    else (k, v) :: insert key value rest

def find? {α : Type} : Table α → String → Option α
  | [], _ => none
  | (k, v) :: rest, key => if k = key then some v else find? rest key

def has {α : Type} (table : Table α) (key : String) : Bool := (table.find? key).isSome

def keys {α : Type} (table : Table α) : List String := table.map (·.1)

theorem find?_insert {α : Type} (key other : String) (value : α) (table : Table α) :
    (insert key value table).find? other =
      if other = key then some value else table.find? other := by
  induction table with
  | nil => simp [insert,find?,eq_comm]
  | cons pair rest ih =>
    obtain ⟨k,v⟩ := pair
    unfold insert
    split
    · simp [find?,eq_comm]
    · split
      next equal => subst equal; by_cases same : key = other <;> simp [find?,same,Ne.symm]
      next different =>
        by_cases same : k = other
        · subst same; simp [find?,Ne.symm different]
        · simp [find?,same,ih]

end Table
end MediaGraph
