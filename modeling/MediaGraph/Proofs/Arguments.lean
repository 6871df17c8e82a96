import MediaGraph.Argument.Basic
import Mathlib.Data.List.Forall2

/-! Arguments behind both levels of quoting.
The outer reader gives back any text that was quoted. The inner one is followed from
part to part: behind a part that it reads whole it stands where it would stand at the
start, so the parts of a joined text come back one by one. -/
namespace MediaGraph

def ArgumentValue.written : ArgumentValue → String
  | text value => value
  | file path => "/" ++ path

namespace Argument

def keyedGiven (pair : String × ArgumentValue) : String :=
  pair.1 ++ "=" ++ pair.2.written

/-- The parts of an argument as the caller means them. -/
def given : Argument → List String
  | scalar value => [value]
  | list items => items
  | keyed pairs => pairs.map keyedGiven

def keys : Argument → List String
  | scalar _ => []
  | list _ => []
  | keyed pairs => pairs.map Prod.fst

def unquoteText (s : String) : String := String.ofList (unquote s.toList)

def split (s : String) : List String := (values s.toList).map String.ofList

def cutKey (part : String) : String × String :=
  (String.ofList (part.toList.takeWhile (· ≠ '=')),
    String.ofList (part.toList.dropWhile (· ≠ '=')).tail)

section Quoting

theorem unquoteFrom_quoteFrom (inside : Bool) (s : List Char) :
    unquoteFrom inside (quoteFrom inside s) = s := by
  induction s generalizing inside with
  | nil => cases inside <;> rfl
  | cons c rest ih =>
    by_cases structural : isStructural c = true
    · cases inside <;> simp [quoteFrom,structural,unquoteFrom,ih]
    · have plain : c ≠ '\'' ∧ c ≠ '\\' := by
        constructor <;> rintro rfl <;> exact structural rfl
      cases inside <;> simp [quoteFrom,structural,unquoteFrom,plain,ih]

theorem unquoteText_quoteText (s : String) : unquoteText (quoteText s) = s := by
  rw [unquoteText,quoteText,String.toList_ofList,unquote,quote,unquoteFrom_quoteFrom,
    String.ofList_toList]

end Quoting

section Parts

theorem values_ne_nil (s : List Char) : values s ≠ [] := by
  fun_induction values s <;> simp_all

def onto (start : List Char) : List (List Char) → List (List Char)
  | [] => [start]
  | piece :: more => (start ++ piece) :: more

theorem onto_append (first second : List Char) (pieces : List (List Char)) :
    onto (first ++ second) pieces = onto first (onto second pieces) := by
  cases pieces <;> simp [onto]

/-- The text is read as the part, whatever comes behind it. -/
def ReadsAs (text part : List Char) : Prop :=
  ∀ rest, values (text ++ rest) = onto part (values rest)

theorem readsAs_nil : ReadsAs [] [] := by
  intro rest
  cases pieces : values rest with
  | nil => exact absurd pieces (values_ne_nil rest)
  | cons piece more => simp [onto,pieces]

theorem ReadsAs.append {text more part next : List Char} (first : ReadsAs text part)
    (second : ReadsAs more next) : ReadsAs (text ++ more) (part ++ next) := by
  intro rest
  rw [List.append_assoc,first,second,onto_append]

theorem readsAs_plain {c : Char} (colon : c ≠ ':') (backslash : c ≠ '\\') : ReadsAs [c] [c] := by
  intro rest
  cases pieces : values rest <;> simp [values,onto,pieces,colon,backslash]

theorem readsAs_protected (c : Char) : ReadsAs ['\\',c] [c] := by
  intro rest
  cases pieces : values rest <;> simp [values,onto,pieces]

theorem readsAs_self {s : List Char} (colon : ':' ∉ s) (backslash : '\\' ∉ s) : ReadsAs s s := by
  induction s with
  | nil => exact readsAs_nil
  | cons c rest ih =>
    simp only [List.mem_cons,not_or] at colon backslash
    exact (readsAs_plain (Ne.symm colon.1) (Ne.symm backslash.1)).append
      (ih colon.2 backslash.2)

theorem readsAs_escape (s : List Char) : ReadsAs (escape s) s := by
  induction s with
  | nil => exact readsAs_nil
  | cons c rest ih =>
    by_cases reserved : isReserved c = true
    · rw [escape,if_pos reserved]
      exact (readsAs_protected c).append ih
    · have plain : c ≠ ':' ∧ c ≠ '\\' := by
        constructor <;> rintro rfl <;> exact reserved rfl
      rw [escape,if_neg reserved]
      exact (readsAs_plain plain.1 plain.2).append ih

theorem escape_digits (n : Nat) : escape (Nat.toDigits 10 n) = Nat.toDigits 10 n := by
  have same (s : List Char) (digits : ∀ c ∈ s, c.isDigit = true) : escape s = s := by
    induction s with
    | nil => rfl
    | cons c rest ih =>
      obtain ⟨first,later⟩ := List.forall_mem_cons.mp digits
      have plain : isReserved c = false := by
        simp only [isReserved,Bool.or_eq_false_iff,decide_eq_false_iff_not]
        refine ⟨⟨?_,?_⟩,?_⟩ <;> rintro rfl <;> simp at first
      rw [escape,plain,ih later]
      rfl
  exact same _ fun c member => Nat.isDigit_of_mem_toDigits (by decide) (by decide) member

theorem readsAs_keyedPart {pair : String × ArgumentValue}
    (plain : '\\' ∉ pair.1.toList ∧ ':' ∉ pair.1.toList) :
    ReadsAs (keyedPart pair) (keyedGiven pair).toList := by
  obtain ⟨key,value⟩ := pair
  have name : ReadsAs (key.toList ++ ['=']) (key.toList ++ ['=']) :=
    (readsAs_self plain.2 plain.1).append (readsAs_plain (by decide) (by decide))
  cases value with
  | text value =>
    have whole := name.append (readsAs_escape value.toList)
    simpa [keyedPart,keyedGiven,ArgumentValue.written] using whole
  | file path =>
    have slash : ReadsAs ['/'] ['/'] := readsAs_plain (by decide) (by decide)
    have whole := name.append (slash.append (readsAs_escape path.toList))
    simpa [keyedPart,keyedGiven,ArgumentValue.written] using whole

theorem readsAs_parts {arg : Argument}
    (plain : ∀ key ∈ arg.keys, '\\' ∉ key.toList ∧ ':' ∉ key.toList) :
    List.Forall₂ ReadsAs arg.parts (arg.given.map String.toList) := by
  cases arg with
  | scalar value => exact .cons (readsAs_escape value.toList) .nil
  | list items =>
    rw [parts,given,List.forall₂_map_left_iff,List.forall₂_map_right_iff,List.forall₂_same]
    exact fun item _ => readsAs_escape item.toList
  | keyed pairs =>
    rw [parts,given,List.map_map,List.forall₂_map_left_iff,List.forall₂_map_right_iff,
      List.forall₂_same]
    exact fun pair member => readsAs_keyedPart (plain pair.1 (List.mem_map_of_mem member))

theorem readsAs_flatMap {args : List Argument}
    (plain : ∀ key ∈ args.flatMap keys, '\\' ∉ key.toList ∧ ':' ∉ key.toList) :
    List.Forall₂ ReadsAs (args.flatMap parts) ((args.flatMap given).map String.toList) := by
  induction args with
  | nil => exact .nil
  | cons arg rest ih =>
    rw [List.flatMap_cons,List.forall_mem_append] at plain
    rw [List.flatMap_cons,List.flatMap_cons,List.map_append]
    exact List.rel_append (readsAs_parts plain.1) (ih plain.2)

theorem values_join {texts pieces : List (List Char)} (reads : List.Forall₂ ReadsAs texts pieces)
    (filled : pieces ≠ []) : values (Text.join [':'] texts) = pieces := by
  induction reads with
  | nil => exact absurd rfl filled
  | @cons text piece more next first rest ih =>
    cases rest with
    | nil =>
      have whole := first []
      rw [List.append_nil] at whole
      simpa [Text.join,values,onto] using whole
    | cons second rest =>
      have tail := ih (List.cons_ne_nil _ _)
      rw [Text.join,List.append_assoc,List.singleton_append,first]
      simp [values,onto,tail]

theorem split_encode {args : List Argument} (several : ∀ raw, args ≠ [scalar raw])
    (filled : args.flatMap given ≠ [])
    (plain : ∀ key ∈ args.flatMap keys, '\\' ∉ key.toList ∧ ':' ∉ key.toList) :
    split (encode args) = args.flatMap given := by
  have joined : encode args = String.ofList (Text.join [':'] (args.flatMap parts)) := by
    rw [encode]
    exact several
  have read := values_join (readsAs_flatMap plain) (by simpa using filled)
  rw [split,joined,String.toList_ofList,read,List.map_map]
  simp [Function.comp_def]

theorem cutKey_keyedGiven {pair : String × ArgumentValue} (free : '=' ∉ pair.1.toList) :
    cutKey (keyedGiven pair) = (pair.1,pair.2.written) := by
  have before : ∀ c ∈ pair.1.toList, (decide (c ≠ '=')) = true := by
    intro c member
    exact decide_eq_true fun same => free (same ▸ member)
  have sides : (keyedGiven pair).toList = pair.1.toList ++ '=' :: pair.2.written.toList := by
    simp [keyedGiven]
  rw [cutKey,sides,List.takeWhile_append_of_pos before,List.dropWhile_append_of_pos before]
  simp

end Parts

/-- Reading an argument text undoes writing it. A single scalar was encoded by the caller
and comes back from the outer reader alone. -/
theorem encoding_roundtrip :
    (∀ s, unquoteText (quoteText s) = s) ∧
      (∀ args, (∀ raw, args ≠ [scalar raw]) → args.flatMap given ≠ [] →
        (∀ key ∈ args.flatMap keys, '\\' ∉ key.toList ∧ ':' ∉ key.toList) →
        split (unquoteText (quoteText (encode args))) = args.flatMap given) ∧
      (∀ pair, '=' ∉ pair.1.toList → cutKey (keyedGiven pair) = (pair.1,pair.2.written)) ∧
      ∀ raw, unquoteText (quoteText (encode [scalar raw])) = raw := by
  refine ⟨unquoteText_quoteText,?_,fun _ => cutKey_keyedGiven,fun raw => unquoteText_quoteText raw⟩
  intro args several filled plain
  rw [unquoteText_quoteText]
  exact split_encode several filled plain

theorem encoding_roundtrip_mixed :
    split (unquoteText (quoteText (encode [scalar "a:b",
      keyed [("text",.text "it's, ok\\"),("f",.file "/c.txt")]]))) =
        ["a:b","text=it's, ok\\","f=//c.txt"] ∧
      cutKey "f=//c.txt" = ("f","//c.txt") :=
  ⟨encoding_roundtrip.2.1 _ (by simp) (by decide) (by decide),
    encoding_roundtrip.2.2.1 ("f",.file "/c.txt") (by decide)⟩

end Argument
end MediaGraph
