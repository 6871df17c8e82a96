import MediaGraph.Json.Print

/-! Printed characters as lexemes.
Every escape is read as one piece, and the pieces make up the text again. `Lexes` says what some
characters are whatever follows them, so that it goes along with concatenation. -/
namespace MediaGraph.Json

/-- How the escape of a character is read: a control without a letter of its own by its number. -/
def piece (c : Char) : Piece :=
  if ['\x08','\x0c','\n','\r','\t'].contains c then .char c
  else if c.toNat < 0x20 then .unit c.toNat
  else .char c

def pieces (s : String) : List Piece := s.toList.map piece

def controlDigits (n : Nat) : List Char :=
  List.replicate (4 - (Text.hexDigits n).length) '0' ++ Text.hexDigits n

theorem controlDigits_read : ∀ n < 0x20,
    (match controlDigits n with
    | [a,b,c,d] => hexUnit? a b c d
    | _ => none) = some n := by
  decide

theorem readText_control (n : Nat) (small : n < 0x20) (done : List Piece) (rest : List Char) :
    readText done ('\\' :: 'u' :: controlDigits n ++ rest) = readText (.unit n :: done) rest := by
  have read := controlDigits_read n small
  split at read
  next digits =>
    rw [digits]
    simp [readText,read]
  next => cases read

theorem readText_escape (c : Char) (done : List Piece) (rest : List Char) :
    readText done (escapeChar c ++ rest) = readText (piece c :: done) rest := by
  by_cases short : c ∈ ['"','\\','\x08','\x0c','\n','\r','\t']
  · simp only [List.mem_cons,List.not_mem_nil,or_false] at short
    rcases short with rfl | rfl | rfl | rfl | rfl | rfl | rfl <;> rfl
  · simp only [List.mem_cons,List.not_mem_nil,or_false,not_or] at short
    obtain ⟨quote,slash,back,feed,line,carriage,tab⟩ := short
    have long : ['\x08','\x0c','\n','\r','\t'].contains c = false := by
      simp [back,feed,line,carriage,tab]
    rw [piece,long]
    simp only [escapeChar,quote,slash,back,feed,line,carriage,tab,if_false]
    split
    next low => exact readText_control c.toNat low done rest
    next high => simp [readText,slash,high]

theorem readText_quoted (s : String) (rest : List Char) :
    readText [] (s.toList.flatMap escapeChar ++ '"' :: rest) = some (pieces s,rest) := by
  have through (chars : List Char) (done : List Piece) :
      readText done (chars.flatMap escapeChar ++ '"' :: rest) =
        some (done.reverse ++ chars.map piece,rest) := by
    induction chars generalizing done with
    | nil => simp [readText]
    | cons c more ih =>
      rw [List.flatMap_cons,List.append_assoc,readText_escape,ih]
      simp
  simpa [pieces] using through s.toList []

theorem assemble_unit (n : Nat) (small : n < 0xd800) (more : List Piece) :
    assemble (.unit n :: more) = (assemble more).map (Char.ofNat n :: ·) := by
  have below : ¬ 0xd800 ≤ n := by omega
  have under : ¬ 0xdc00 ≤ n := by omega
  cases more with
  | nil => simp [assemble,below]
  | cons first rest => cases first <;> simp [assemble,below,under]

theorem assemble_pieces (chars : List Char) : assemble (chars.map piece) = some chars := by
  induction chars with
  | nil => rfl
  | cons c rest ih =>
    rw [List.map_cons,piece]
    split
    · rw [assemble,ih]
      rfl
    split
    next low =>
      rw [assemble_unit c.toNat (by omega),ih,Char.ofNat_toNat]
      rfl
    · rw [assemble,ih]
      rfl

theorem textOf_pieces (s : String) : textOf (pieces s) = .ok s := by
  simp [textOf,pieces,assemble_pieces]

/-- Some characters are these lexemes, whatever follows them. They take no more steps than there are
characters, so that the length of a text is enough for all of it. -/
def Lexes (chars : List Char) (found : List Token) : Prop :=
  ∃ steps ≤ chars.length, ∀ fuel done rest,
    tokensUpTo (steps + fuel) done (chars ++ rest) = tokensUpTo fuel (found.reverse ++ done) rest

namespace Lexes
variable {chars more : List Char} {found others : List Token}

theorem nil : Lexes [] [] := ⟨0,Nat.le_refl 0,fun fuel done rest => by simp⟩

theorem append (before : Lexes chars found) (after : Lexes more others) :
    Lexes (chars ++ more) (found ++ others) := by
  obtain ⟨m,short,before⟩ := before
  obtain ⟨n,brief,after⟩ := after
  refine ⟨m + n,by rw [List.length_append]; omega,fun fuel done rest => ?_⟩
  rw [Nat.add_assoc,List.append_assoc,before,after]
  simp

theorem gap {c : Char} (blank : isGap c = true) : Lexes [c] [] :=
  ⟨1,Nat.le_refl 1,fun fuel done rest => by simp [Nat.add_comm 1,tokensUpTo,blank]⟩

theorem one {c : Char} {token : Token} (solid : isGap c = false)
    (read : ∀ rest, readToken c (chars ++ rest) = some (token,rest)) : Lexes (c :: chars) [token] :=
  ⟨1,by simp,fun fuel done rest => by simp [Nat.add_comm 1,tokensUpTo,solid,read]⟩

theorem margin (depth : Nat) : Lexes (margin depth) [] := by
  have blanks (n : Nat) : Lexes (List.replicate n ' ') [] := by
    induction n with
    | zero => exact nil
    | succ n ih => exact (gap (c := ' ') rfl).append ih
  exact (gap (c := '\n') rfl).append (blanks (2 * depth))

theorem quoted (s : String) : Lexes (quoted s) [.text (pieces s)] :=
  one rfl fun rest => by simp [readToken,readText_quoted]

theorem tokens (lexes : Lexes chars found) : tokens chars = some found := by
  obtain ⟨steps,short,lexes⟩ := lexes
  have all := lexes (chars.length - steps) [] []
  -- The steps that are left find the text at its end.
  rw [Nat.add_sub_cancel' short,List.append_nil,List.append_nil] at all
  rw [Json.tokens,all,tokensUpTo.eq_def]
  simp

end Lexes

end MediaGraph.Json
