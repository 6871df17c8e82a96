import Mathlib.Data.List.Forall2
import MediaGraph.Proofs.Lexing

/-! What an indented text is read as.
A value has the same tree wherever it stands: as the whole text, as an item or as a member.
Arrays and objects differ in their brackets and in what a part is, and are one argument. -/
namespace MediaGraph.Json

/-- Some characters are read as a tree wherever a value can start. -/
def Spells (chars : List Char) (tree : Tree) : Prop :=
  ∃ found, Lexes chars found ∧ ∀ frames mode, mode = .firstItem ∨ mode = .value →
    found.foldlM Reader.step ⟨frames,mode⟩ = Reader.close tree frames

/-- A kind of containers: what opens and closes one, and how its parts are collected. -/
structure Container (α : Type) where
  first : Char
  last : Char
  opening : Token
  closing : Token
  hold : List α → Frame
  start : Mode
  again : Mode
  whole : List α → Tree
  first_lexes : Lexes [first] [opening]
  last_lexes : Lexes [last] [closing]
  opens : ∀ frames mode, mode = .firstItem ∨ mode = .value →
    Reader.step ⟨frames,mode⟩ opening = some ⟨hold [] :: frames,start⟩
  continues : ∀ done frames,
    Reader.step ⟨hold done :: frames,.next⟩ .comma = some ⟨hold done :: frames,again⟩
  closes : ∀ done frames mode, mode = start ∨ mode = .next →
    Reader.step ⟨hold done :: frames,mode⟩ closing = Reader.close (whole done.reverse) frames

theorem step_value {token : Token} (opens : token ≠ .closeArray) (frames : List Frame) (mode : Mode)
    (free : mode = .firstItem ∨ mode = .value) :
    Reader.step ⟨frames,mode⟩ token = Reader.value frames token := by
  rcases free with rfl | rfl
  · unfold Reader.step
    split <;> simp_all
  · rfl

theorem Spells.one {chars : List Char} {token : Token} {tree : Tree} (lexes : Lexes chars [token])
    (opens : token ≠ .closeArray)
    (reads : ∀ frames, Reader.value frames token = Reader.close tree frames) : Spells chars tree := by
  refine ⟨[token],lexes,fun frames mode free => ?_⟩
  simp [step_value opens frames mode free,reads]

namespace Container
variable {α : Type} (kind : Container α)

def Holds (chars : List Char) (x : α) : Prop :=
  ∃ found, Lexes chars found ∧ ∀ done frames mode, mode = kind.start ∨ mode = kind.again →
    found.foldlM Reader.step ⟨kind.hold done :: frames,mode⟩ =
      some ⟨kind.hold (x :: done) :: frames,.next⟩

theorem more {parts : List (List Char)} {content : List α} (depth : Nat)
    (each : List.Forall₂ kind.Holds parts content) :
    ∃ found, Lexes (parts.flatMap fun part => ',' :: margin depth ++ part) found ∧
      ∀ done frames, found.foldlM Reader.step ⟨kind.hold done :: frames,.next⟩ =
        some ⟨kind.hold (content.reverse ++ done) :: frames,.next⟩ := by
  induction each with
  | nil => exact ⟨[],.nil,fun done frames => rfl⟩
  | cons head _ ih =>
    obtain ⟨found,lexes,moves⟩ := head
    obtain ⟨others,after,remaining⟩ := ih
    have comma : Lexes [','] [.comma] := .one rfl fun _ => rfl
    -- A part comes with the comma and the margin before it, and the margin has no lexemes.
    refine ⟨[.comma] ++ [] ++ found ++ others,?_,fun done frames => ?_⟩
    · exact ((comma.append (.margin depth)).append lexes).append after
    · simp [kind.continues,moves,remaining]

theorem join_cons (mark piece : List Char) (rest : List (List Char)) :
    Text.join mark (piece :: rest) = piece ++ rest.flatMap (mark ++ ·) := by
  induction rest generalizing piece with
  | nil => simp [Text.join]
  | cons next rest ih => simp [Text.join,ih]

theorem block {parts : List (List Char)} {content : List α} (depth : Nat)
    (each : List.Forall₂ kind.Holds parts content) :
    Spells (block depth kind.first kind.last parts) (kind.whole content) := by
  cases each with
  | nil =>
    refine ⟨[kind.opening] ++ [kind.closing],kind.first_lexes.append kind.last_lexes,?_⟩
    intro frames mode free
    simp [kind.opens frames mode free,kind.closes]
  | cons head rest =>
    obtain ⟨found,lexes,moves⟩ := head
    obtain ⟨others,after,remaining⟩ := kind.more (depth + 1) rest
    refine ⟨[kind.opening] ++ [] ++ (found ++ others) ++ [] ++ [kind.closing],?_,?_⟩
    · simp only [Json.block,List.isEmpty_cons,Bool.false_eq_true,if_false,join_cons]
      exact (((kind.first_lexes.append (.margin _)).append (lexes.append after)).append
        (.margin depth)).append kind.last_lexes
    · intro frames mode free
      simp [kind.opens frames mode free,moves,remaining,kind.closes]

end Container

def arrays : Container Tree where
  first := '['
  last := ']'
  opening := .openArray
  closing := .closeArray
  hold := .array
  start := .firstItem
  again := .value
  whole := .array
  first_lexes := .one rfl fun _ => rfl
  last_lexes := .one rfl fun _ => rfl
  opens frames mode free := step_value (by decide) frames mode free
  continues _ _ := rfl
  closes done frames mode free := by rcases free with rfl | rfl <;> rfl

def objects : Container (List Piece × Tree) where
  first := '\x7b'
  last := '\x7d'
  opening := .openObject
  closing := .closeObject
  hold := .object
  start := .firstKey
  again := .key
  whole := .object
  first_lexes := .one rfl fun _ => rfl
  last_lexes := .one rfl fun _ => rfl
  opens frames mode free := step_value (by decide) frames mode free
  continues _ _ := rfl
  closes done frames mode free := by rcases free with rfl | rfl <;> rfl

theorem Spells.item {chars : List Char} {tree : Tree} (spells : Spells chars tree) :
    arrays.Holds chars tree := by
  obtain ⟨found,lexes,reads⟩ := spells
  exact ⟨found,lexes,fun done frames mode free => reads (.array done :: frames) mode free⟩

theorem Spells.member {chars : List Char} {tree : Tree} (key : String) (spells : Spells chars tree) :
    objects.Holds (quoted key ++ ':' :: ' ' :: chars) (pieces key,tree) := by
  obtain ⟨found,lexes,reads⟩ := spells
  have colon : Lexes [':'] [.colon] := .one rfl fun _ => rfl
  refine ⟨[.text (pieces key)] ++ ([.colon] ++ ([] ++ found)),?_,fun done frames mode free => ?_⟩
  · exact (Lexes.quoted key).append (colon.append ((Lexes.gap (c := ' ') rfl).append lexes))
  · have named : Reader.step ⟨.object done :: frames,mode⟩ (.text (pieces key)) =
        some ⟨.object done :: frames,.colon (pieces key)⟩ := by
      rcases free with rfl | rfl <;> rfl
    exact (congrArg (· >>= _) named).trans
      (reads (.member done (pieces key) :: frames) .value (Or.inr rfl))

mutual

def Plain : Nat → Json → Prop
  | _, .null => True
  | _, .bool _ => True
  | _, .number _ => False
  | _, .text _ => True
  | 0, .array _ => False
  | depth + 1, .array items => PlainItems depth items
  | 0, .object _ => False
  | depth + 1, .object members => PlainMembers depth members

def PlainItems : Nat → List Json → Prop
  | _, [] => True
  | depth, v :: rest => Plain depth v ∧ PlainItems depth rest

def PlainMembers : Nat → List (String × Json) → Prop
  | _, [] => True
  | depth, (_, v) :: rest => Plain depth v ∧ PlainMembers depth rest

end

mutual

/-- The tree that a printed value is read as; of a number only its characters are kept. -/
def tree : Json → Tree
  | .null => .null
  | .bool b => .bool b
  | .number n => .numeral ⟨false,n.text.toList,[],none⟩
  | .text s => .text (pieces s)
  | .array items => .array (trees items)
  | .object members => .object (memberTrees members)

def trees : List Json → List Tree
  | [] => []
  | v :: rest => v.tree :: trees rest

def memberTrees : List (String × Json) → List (List Piece × Tree)
  | [] => []
  | (k, v) :: rest => (pieces k,v.tree) :: memberTrees rest

end

mutual

theorem spells_indented (depth limit : Nat) (v : Json) (plain : Plain limit v) :
    Spells (indentedChars depth v) v.tree := by
  cases v with
  | null => exact .one (.one rfl fun _ => rfl) (by simp) fun _ => rfl
  | bool b =>
    cases b with
    | true => exact .one (.one rfl fun _ => rfl) (by simp) fun _ => rfl
    | false => exact .one (.one rfl fun _ => rfl) (by simp) fun _ => rfl
  | number n => exact False.elim plain
  | text s => exact .one (.quoted s) (by simp) fun _ => rfl
  | array items =>
    cases limit with
    | zero => exact False.elim plain
    | succ limit => exact arrays.block depth (spells_items (depth + 1) limit items plain)
  | object members =>
    cases limit with
    | zero => exact False.elim plain
    | succ limit =>
      exact objects.block depth (spells_members (depth + 1) limit members plain)

theorem spells_items (depth limit : Nat) (items : List Json) (plain : PlainItems limit items) :
    List.Forall₂ arrays.Holds (indentedItems depth items) (trees items) := by
  cases items with
  | nil => exact .nil
  | cons v rest =>
    obtain ⟨head,others⟩ := plain
    exact .cons (spells_indented depth limit v head).item (spells_items depth limit rest others)

theorem spells_members (depth limit : Nat) (members : List (String × Json))
    (plain : PlainMembers limit members) :
    List.Forall₂ objects.Holds (indentedMembers depth members) (memberTrees members) := by
  cases members with
  | nil => exact .nil
  | cons m rest =>
    obtain ⟨k,v⟩ := m
    obtain ⟨head,others⟩ := plain
    exact .cons ((spells_indented depth limit v head).member k)
      (spells_members depth limit rest others)

end

mutual

theorem ofTree_tree (limit : Nat) (v : Json) (plain : Plain limit v) :
    ofTree limit v.tree = .ok v := by
  cases v with
  | null => cases limit <;> rfl
  | bool b => cases limit <;> rfl
  | number n => exact False.elim plain
  | text s => cases limit <;> simp [tree,ofTree,textOf_pieces,Except.map]
  | array items =>
    cases limit with
    | zero => exact False.elim plain
    | succ limit => simp [tree,ofTree,ofItems_trees limit items plain,Except.map]
  | object members =>
    cases limit with
    | zero => exact False.elim plain
    | succ limit => simp [tree,ofTree,ofMembers_trees limit members plain,Except.map]

theorem ofItems_trees (limit : Nat) (items : List Json) (plain : PlainItems limit items) :
    ofItems limit (trees items) = .ok items := by
  cases items with
  | nil => rfl
  | cons v rest =>
    obtain ⟨head,others⟩ := plain
    simp only [trees,ofItems,ofTree_tree limit v head,ofItems_trees limit rest others]
    rfl

theorem ofMembers_trees (limit : Nat) (members : List (String × Json))
    (plain : PlainMembers limit members) : ofMembers limit (memberTrees members) = .ok members := by
  cases members with
  | nil => rfl
  | cons m rest =>
    obtain ⟨k,v⟩ := m
    obtain ⟨head,others⟩ := plain
    simp only [memberTrees,ofMembers,textOf_pieces,ofTree_tree limit v head,
      ofMembers_trees limit rest others]
    rfl

end

theorem parse?_indented {limit : Nat} {v : Json} (plain : Plain limit v) :
    Tree.parse? v.indented = some v.tree := by
  obtain ⟨found,lexes,reads⟩ := spells_indented 0 limit v plain
  rw [Tree.parse?,indented,String.toList_ofList,lexes.tokens]
  exact congrArg (· >>= _) (reads [] .value (Or.inr rfl))

end MediaGraph.Json
