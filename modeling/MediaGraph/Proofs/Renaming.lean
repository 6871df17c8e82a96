import MediaGraph.Proofs.Runs

/-! Every pipe has a name of its own.
Names that the graph makes up come from one counter, and an export that moves to another pipe trades
names with it. So as long as callers choose different names, and none that the graph could make up,
no two pipes are called the same, and who has a chosen name is the pipe that it was chosen for. -/
namespace MediaGraph
namespace Session

structure Unique (s : Session) : Prop where
  distinct : ∀ p q, p < s.pipes.size → q < s.pipes.size → (s.pipe p).name = (s.pipe q).name → p = q
  spent : ∀ p k, p < s.pipes.size → (s.pipe p).name = "_" ++ toString k → k < s.counter

/-- How pipes come by names without a caller choosing one. -/
inductive Renames (s t : Session) : Prop
  | keep (size : t.pipes.size = s.pipes.size) (counter : t.counter = s.counter)
      (names : ∀ p, (t.pipe p).name = (s.pipe p).name)
  | make (size : t.pipes.size = s.pipes.size + 1) (counter : t.counter = s.counter + 1)
      (new : (t.pipe s.pipes.size).name = s.freshName)
      (names : ∀ p, p ≠ s.pipes.size → (t.pipe p).name = (s.pipe p).name)
  | trade (r : Nat) (bound : r < s.readers.size) (leaves : (s.reader r).owner = .exported)
      (inside : (s.reader r).pipe < s.pipes.size) (size : t.pipes.size = s.pipes.size + 1)
      (counter : t.counter = s.counter + 1)
      (new : (t.pipe s.pipes.size).name = (s.pipe (s.reader r).pipe).name)
      (old : (t.pipe (s.reader r).pipe).name = s.freshName)
      (names : ∀ p, p ≠ s.pipes.size → p ≠ (s.reader r).pipe → (t.pipe p).name = (s.pipe p).name)

/-- The pipe had its name before, or the name is one that an export was given. -/
def Inherits (s t : Session) (names : List (Nat × String)) (p : Nat) : Prop :=
  (p < s.pipes.size ∧ (s.pipe p).name = (t.pipe p).name) ∨ ∃ r, (r,(t.pipe p).name) ∈ names

section Steps
variable {s t u : Session} {names : List (Nat × String)}

theorem freshName_eq {k : Nat} (same : s.freshName = "_" ++ toString k) : k = s.counter := by
  have digits : Nat.toDigits 10 s.counter = Nat.toDigits 10 k := by
    simpa using congrArg String.toList ((String.append_right_inj "_").mp same)
  rw [← Nat.ofDigitChars_toDigits (b := 10) (n := k) (by omega) (by omega),← digits,
    Nat.ofDigitChars_toDigits (by omega) (by omega)]

theorem Unique.not_fresh (unique : s.Unique) {p : Nat} (inside : p < s.pipes.size) :
    (s.pipe p).name ≠ s.freshName :=
  fun same => Nat.lt_irrefl _ (unique.spent p s.counter inside same)

theorem Renames.unique (renames : Renames s t) (unique : s.Unique) : t.Unique := by
  cases renames with
  | keep size counter names =>
    constructor
    · intro p q insideP insideQ
      rw [names,names]
      exact unique.distinct p q (size ▸ insideP) (size ▸ insideQ)
    · intro p k inside
      rw [names,counter]
      exact unique.spent p k (size ▸ inside)
  | make size counter new names =>
    have fresh (p : Nat) (inside : p < s.pipes.size) :
        (t.pipe p).name ≠ (t.pipe s.pipes.size).name := by
      rw [names p (Nat.ne_of_lt inside),new]
      exact unique.not_fresh inside
    constructor
    · intro p q insideP insideQ same
      rcases Nat.lt_or_eq_of_le (Nat.le_of_lt_succ (size ▸ insideP)) with oldP | rfl <;>
        rcases Nat.lt_or_eq_of_le (Nat.le_of_lt_succ (size ▸ insideQ)) with oldQ | rfl
      · rw [names p (Nat.ne_of_lt oldP),names q (Nat.ne_of_lt oldQ)] at same
        exact unique.distinct p q oldP oldQ same
      · exact absurd same (fresh p oldP)
      · exact absurd same.symm (fresh q oldQ)
      · rfl
    · intro p k inside same
      rcases Nat.lt_or_eq_of_le (Nat.le_of_lt_succ (size ▸ inside)) with old | rfl
      · rw [names p (Nat.ne_of_lt old)] at same
        have := unique.spent p k old same
        omega
      · have := freshName_eq (new.symm.trans same)
        omega
  | trade r bound leaves inside size counter new old names =>
    -- Every pipe of the later session has the name of one before, or the one that is made up.
    have cases (p : Nat) (insideP : p < t.pipes.size) :
        ((t.pipe p).name = s.freshName ∧ p = (s.reader r).pipe) ∨
        ∃ q < s.pipes.size, (t.pipe p).name = (s.pipe q).name ∧
          (p = s.pipes.size ∧ q = (s.reader r).pipe ∨ p = q ∧ p ≠ (s.reader r).pipe) := by
      by_cases last : p = s.pipes.size
      · exact .inr ⟨_,inside,last ▸ new,.inl ⟨last,rfl⟩⟩
      · by_cases left : p = (s.reader r).pipe
        · exact .inl ⟨left ▸ old,left⟩
        · exact .inr ⟨p,by omega,names p last left,.inr ⟨rfl,left⟩⟩
    constructor
    · intro p q insideP insideQ same
      rcases cases p insideP with ⟨madeP,atP⟩ | ⟨p',hadP,nameP,whereP⟩ <;>
        rcases cases q insideQ with ⟨madeQ,atQ⟩ | ⟨q',hadQ,nameQ,whereQ⟩
      · rw [atP,atQ]
      · exact absurd (nameQ.symm.trans (same.symm.trans madeP)) (unique.not_fresh hadQ)
      · exact absurd (nameP.symm.trans (same.trans madeQ)) (unique.not_fresh hadP)
      · have equal := unique.distinct p' q' hadP hadQ (nameP.symm.trans (same.trans nameQ))
        omega
    · intro p k insideP same
      rcases cases p insideP with ⟨made,_⟩ | ⟨q,had,name,_⟩
      · have := freshName_eq (made.symm.trans same)
        omega
      · have := unique.spent q k had (name.symm.trans same)
        omega

theorem Renames.origin (renames : Renames s t) (labelled : Labelled s names) {p : Nat}
    (inside : p < t.pipes.size) (chosen : ¬ Generated (t.pipe p).name) : Inherits s t names p := by
  cases renames with
  | keep size _ same => exact .inl ⟨size ▸ inside,(same p).symm⟩
  | make size _ new same =>
    have other : p ≠ s.pipes.size := by
      rintro rfl
      exact chosen (new ▸ s.freshName_generated)
    exact .inl ⟨by omega,(same p other).symm⟩
  | trade r bound leaves insideR size _ new old same =>
    by_cases last : p = s.pipes.size
    · obtain ⟨name,listed⟩ := (labelled.exported r bound).mp leaves
      have equal : (t.pipe p).name = name := by
        rw [last,new]
        exact (labelled.called r name listed).1
      exact .inr ⟨r,equal ▸ listed⟩
    · have other : p ≠ (s.reader r).pipe := by
        rintro rfl
        exact chosen (old ▸ s.freshName_generated)
      exact .inl ⟨by omega,(same p last other).symm⟩

end Steps

theorem Turn.renames {l m : Ledger} (turn : Turn l m) (sound : Sound l.session l.pending) :
    Renames l.session m.session := by
  cases turn with
  | take s _ _ r =>
    have inside := sound.reading.inside r (sound.reading.waiting r (by simp))
    refine Renames.keep (s := s) (t := s.takeDirect r) Array.size_modify rfl fun p => ?_
    rw [pipe_takeDirect s r p inside]
    split
    · split <;> rfl
    · rfl
  | attach s _ _ r _ _ name _ _ _ takes =>
    refine Renames.keep (s := s) (t := s.attach (s.reader r).pipe name) Array.size_modify rfl
      fun p => ?_
    rw [pipe_attach s _ name p (sound.reading.pipe_inside takes)]
    split
    · simp
    · rfl
  | move s _ _ r _ i o =>
    have bound := sound.reading.waiting r (by simp)
    have inside := sound.reading.inside r bound
    have pipes (p : Nat) := pipe_moveTo s i o r p inside
    have size : (s.moveTo i o r).pipes.size = s.pipes.size + 1 := by simp [moveTo]
    have counter : (s.moveTo i o r).counter = s.counter + 1 := rfl
    have last : (s.reader r).pipe ≠ s.pipes.size := Nat.ne_of_lt inside
    have same (p : Nat) (new : p ≠ s.pipes.size) (other : p ≠ (s.reader r).pipe) :
        ((s.moveTo i o r).pipe p).name = (s.pipe p).name := by
      rw [pipes,if_neg new,if_neg other]
    by_cases leaves : (s.reader r).owner = .exported
    · refine Renames.trade (s := s) (t := s.moveTo i o r) r bound leaves inside size counter ?_ ?_ same
      · rw [pipes,if_pos rfl]
        simp [branchFor,leaves]
      · rw [pipes,if_neg last,if_pos rfl]
        simp [deserted,leaves]
    · refine Renames.make (s := s) (t := s.moveTo i o r) size counter ?_ fun p new => ?_
      · rw [pipes,if_pos rfl]
        simp [branchFor,leaves]
      · by_cases left : p = (s.reader r).pipe
        · rw [pipes,if_neg new,if_pos left]
          simp [deserted,leaves]
        · exact same p new left

theorem Plain.renames {l m : Ledger} (plain : Plain l m) (sound : Sound l.session l.pending) :
    Renames l.session m.session := by
  cases plain with
  | anonymous s =>
    refine Renames.make (s := s) (t := s.addAnonymous id) (Array.size_push ..) rfl ?_ fun p other => ?_
    · rw [pipe_addAnonymous,if_pos rfl]
      rfl
    · rw [pipe_addAnonymous,if_neg other]
  | paint s _ _ p media hint =>
    refine Renames.keep (s := s) (t := s.paint p media hint) Array.size_modify rfl fun q => ?_
    have found : (s.paint p media hint).pipe q = _ := pipe_modifyPipe ..
    rw [found]
    split <;> rfl
  | place s _ _ pipes inside =>
    refine Renames.keep (s := s) (t := s.addChain pipes) (pipes_size_addChain s pipes)
      (by rw [addChain_eq]) fun q => ?_
    rw [pipe_addChain s inside,note_name]
  | output s _ _ i op =>
    refine Renames.make (s := s) (t := s.addOutput i op) (Array.size_push ..) rfl ?_ fun p other => ?_
    · rw [pipe_addOutput,if_pos rfl]
      rfl
    · rw [pipe_addOutput,if_neg other]
  | append => exact .keep rfl rfl fun _ => rfl
  | splice => exact .keep rfl rfl fun _ => rfl
  | arguments => exact .keep rfl rfl fun _ => rfl
  | hold => exact .keep rfl rfl fun _ => rfl
  | turn _ _ turn => exact turn.renames sound

/-- Every pipe has a name of its own still, and no chosen name went to another pipe but by exports. -/
structure Tidy (s t : Session) (names : List (Nat × String)) : Prop where
  unique : s.Unique → t.Unique
  origin : ∀ p, p < t.pipes.size → ¬ Generated (t.pipe p).name → Inherits s t names p
  streams : t.streams = s.streams

theorem Plain.streams {l m : Ledger} (plain : Plain l m) : m.session.streams = l.session.streams := by
  cases plain with
  | place => rw [addChain_eq]
  | turn _ _ turn => cases turn <;> rfl
  | _ => rfl

theorem Plains.tidy {l m : Ledger} {names : List (Nat × String)} (plains : Plains l m)
    (kept : l.Kept) (labelled : Labelled l.session names) : Tidy l.session m.session names := by
  induction plains with
  | refl => exact ⟨id,fun _ inside _ => .inl ⟨inside,rfl⟩,rfl⟩
  | tail plains plain ih =>
    have renames := plain.renames (Plains.kept plains kept).1
    have labelledV := Moves.labelled (Plains.moves plains) kept labelled
    refine ⟨fun unique => renames.unique (ih.unique unique),fun p inside chosen => ?_,
      plain.streams.trans ih.streams⟩
    rcases renames.origin labelledV inside chosen with ⟨before,same⟩ | listed
    · rw [← same] at chosen
      rw [Inherits,← same]
      exact ih.origin p before chosen
    · exact .inr listed

theorem Unique.of_given {s t : Session} (unique : s.Unique) {q : Nat} {name : String}
    (chosen : ¬ Generated name) (size : ∀ p, p < t.pipes.size → p ≠ q → p < s.pipes.size)
    (counter : t.counter = s.counter) (given : (t.pipe q).name = name)
    (names : ∀ p, p ≠ q → (t.pipe p).name = (s.pipe p).name)
    (free : ∀ p, p < s.pipes.size → (s.pipe p).name = name → p = q) : t.Unique := by
  have other (p : Nat) (inside : p < t.pipes.size) (apart : p ≠ q) : (t.pipe p).name ≠ name := by
    rw [names p apart]
    exact fun same => apart (free p (size p inside apart) same)
  constructor
  · intro p x insideP insideX same
    by_cases atP : p = q <;> by_cases atX : x = q
    · rw [atP,atX]
    · exact absurd (same.symm.trans (atP ▸ given)) (other x insideX atX)
    · exact absurd (same.trans (atX ▸ given)) (other p insideP atP)
    · rw [names p atP,names x atX] at same
      exact unique.distinct p x (size p insideP atP) (size x insideX atX) same
  · intro p k inside same
    by_cases atP : p = q
    · exact absurd ⟨k,given.symm.trans (atP ▸ same)⟩ chosen
    · rw [names p atP] at same
      rw [counter]
      exact unique.spent p k (size p inside atP) same

theorem Unique.retitle {s : Session} (unique : s.Unique) {p : Nat} {name : String}
    (inside : p < s.pipes.size) (chosen : ¬ Generated name)
    (free : ∀ q, q < s.pipes.size → (s.pipe q).name = name → q = p) : (s.retitle p name).Unique := by
  have pipes (q : Nat) : (s.retitle p name).pipe q = _ := pipe_modifyPipe ..
  have size : (s.retitle p name).pipes.size = s.pipes.size := Array.size_modify
  refine unique.of_given (t := s.retitle p name) chosen (fun q bound _ => size ▸ bound) rfl ?_
    (fun q other => ?_) free
  · rw [pipes,if_pos ⟨rfl,inside⟩]
  · rw [pipes,if_neg fun both => other both.1]

theorem Unique.push {s t : Session} (unique : s.Unique) {pipe : Pipe} (pipes : t.pipes = s.pipes.push pipe)
    (counter : t.counter = s.counter) (chosen : ¬ Generated pipe.name)
    (free : ∀ q, q < s.pipes.size → (s.pipe q).name ≠ pipe.name) : t.Unique := by
  have found (q : Nat) : t.pipe q = if q = s.pipes.size then pipe else s.pipe q := by
    rw [Session.pipe,pipes]
    exact getD_push ..
  have given : (t.pipe s.pipes.size).name = pipe.name := by rw [found,if_pos rfl]
  refine unique.of_given chosen (fun p inside other => ?_) counter given (fun p other => ?_)
    fun q inside same => absurd same (free q inside)
  · rw [pipes,Array.size_push] at inside
    omega
  · rw [found,if_neg other]

end Session
end MediaGraph
