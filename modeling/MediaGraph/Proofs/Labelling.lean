import MediaGraph.Proofs.Handles

/-! The names of what leaves a graph.
A reader that leaves the graph has a pipe whose name is fixed. When a split goes
behind the pipe, the reader moves to an output of it and the name goes along, so that
no later export can disturb it. -/
namespace MediaGraph.Session

/-- Readers stay where they are, and so do names that were chosen; readers that are added do not
leave the graph. -/
structure Undisturbed (s t : Session) : Prop where
  size : s.readers.size ≤ t.readers.size
  reader : ∀ r, r < s.readers.size → (t.reader r).owner = (s.reader r).owner ∧
    (t.reader r).pipe = (s.reader r).pipe ∧
    ((s.reader r).resolved = true → (t.reader r).resolved = true)
  new : ∀ r, s.readers.size ≤ r → r < t.readers.size → (t.reader r).owner ≠ .exported
  called : ∀ p, (s.pipe p).fixed = true →
    (t.pipe p).name = (s.pipe p).name ∧ (t.pipe p).fixed = true

theorem Undisturbed.of_readers {s t : Session} (readers : t.readers = s.readers)
    (called : ∀ p, (s.pipe p).fixed = true →
      (t.pipe p).name = (s.pipe p).name ∧ (t.pipe p).fixed = true) : Undisturbed s t where
  size := Nat.le_of_eq (by rw [readers])
  reader r _ := by
    rw [Session.reader,Session.reader,readers]
    exact ⟨rfl,rfl,id⟩
  new r low high := by
    rw [readers] at high
    exact absurd high (Nat.not_lt.mpr low)
  called := called

theorem ne_of_fixed {s : Session} {p : Nat} (fixed : (s.pipe p).fixed = true) : p ≠ s.pipes.size := by
  rintro rfl
  simp [pipe,Pipe.anonymous] at fixed

theorem Turn.undisturbed {l m : Ledger} (turn : Turn l m) (sound : Sound l.session l.pending) :
    Undisturbed l.session m.session ∨ ∃ s put took r rest i o, l = ⟨s,put,took,r :: rest⟩ ∧
      (s.pipe (s.reader r).pipe).splitter = some i ∧ (s.stage i).operation = some o ∧
      m.session = s.moveTo i o r := by
  cases turn with
  | take s _ _ r _ free =>
    have bound : r < s.readers.size := sound.reading.waiting r (by simp)
    have size : (s.takeDirect r).readers.size = s.readers.size := Array.size_modify
    refine .inl (Undisturbed.mk (s := s) (t := s.takeDirect r) (Nat.le_of_eq size.symm)
      (fun x _ => ?_) (fun x low high => ?_) fun p fixed => ?_)
    · rw [reader_takeDirect s r x bound]
      split
      · exact ⟨rfl,rfl,fun _ => rfl⟩
      · exact ⟨rfl,rfl,id⟩
    · omega
    · rw [pipe_takeDirect s r p (sound.reading.inside r bound)]
      split
      · split <;> exact ⟨rfl,fixed⟩
      · exact ⟨rfl,fixed⟩
  | attach s _ _ r _ d name _ _ _ takes =>
    have size : (s.attach (s.reader r).pipe name).readers.size = s.readers.size + 1 :=
      Array.size_push ..
    refine .inl (Undisturbed.mk (s := s) (t := s.attach (s.reader r).pipe name) (by omega)
      (fun x old => ?_) (fun x low high => ?_) fun p fixed => ?_)
    · rw [reader_attach,if_neg (Nat.ne_of_lt old)]
      exact ⟨rfl,rfl,id⟩
    · have last : x = s.readers.size := by omega
      rw [reader_attach,if_pos last]
      exact nofun
    · rw [pipe_attach s _ name p (sound.reading.pipe_inside takes)]
      split
      · simp [fixed]
      · exact ⟨rfl,fixed⟩
  | move s put took r rest i o behind holds =>
    exact .inr ⟨s,put,took,r,rest,i,o,rfl,behind,holds,rfl⟩

theorem Move.undisturbed {l m : Ledger} (move : Move l m) :
    Undisturbed l.session m.session ∨ Turn l m := by
  cases move with
  | anonymous s =>
    refine .inl (.of_readers rfl fun p fixed => ?_)
    rw [pipe_addAnonymous,if_neg (ne_of_fixed fixed)]
    exact ⟨rfl,fixed⟩
  | named s _ _ name =>
    refine .inl (.of_readers rfl fun p fixed => ?_)
    rw [pipe_addPipe,if_neg (ne_of_fixed fixed)]
    exact ⟨rfl,fixed⟩
  | stream s _ _ spec =>
    refine .inl (.of_readers rfl fun p fixed => ?_)
    have same : (s.openStream spec).pipe p = s.pipe p :=
      (pipe_addPipe s (.ofStream spec) p).trans (if_neg (ne_of_fixed fixed))
    rw [same]
    exact ⟨rfl,fixed⟩
  | paint s _ _ p media hint =>
    refine .inl (.of_readers rfl fun q fixed => ?_)
    have found : (s.paint p media hint).pipe q = _ := pipe_modifyPipe ..
    rw [found]
    split <;> exact ⟨rfl,fixed⟩
  | retitle s _ _ p name _ free =>
    refine .inl (.of_readers rfl fun q fixed => ?_)
    have other : q ≠ p := by
      rintro rfl
      simp [fixed] at free
    have same : (s.retitle p name).pipe q = s.pipe q :=
      (pipe_modifyPipe ..).trans (if_neg fun both => other both.1)
    rw [same]
    exact ⟨rfl,fixed⟩
  | place s _ _ list inside =>
    have size := readers_size_addChain s list
    refine .inl (Undisturbed.mk (s := s) (t := s.addChain list) (by omega)
      (fun r old => ?_) (fun r low high => ?_) fun p fixed => ?_)
    · rw [reader_addChain_old s list r old]
      exact ⟨rfl,rfl,id⟩
    · obtain ⟨k,rfl⟩ := Nat.exists_eq_add_of_le low
      rw [reader_addChain_new s list k (by omega)]
      exact nofun
    · rw [pipe_addChain s inside,note_name,note_fixed]
      exact ⟨rfl,fixed⟩
  | append => exact .inl (.of_readers rfl fun _ fixed => ⟨rfl,fixed⟩)
  | connect s _ _ i pipes =>
    obtain ⟨_,_,record⟩ := putOutputs_eq s i pipes
    refine .inl (.of_readers (by rw [record]) fun p fixed => ?_)
    rw [pipe_putOutputs]
    split <;> exact ⟨rfl,fixed⟩
  | output s _ _ i op =>
    refine .inl (.of_readers rfl fun p fixed => ?_)
    rw [pipe_addOutput,if_neg (ne_of_fixed fixed)]
    exact ⟨rfl,fixed⟩
  | splice => exact .inl (.of_readers rfl fun _ fixed => ⟨rfl,fixed⟩)
  | arguments => exact .inl (.of_readers rfl fun _ fixed => ⟨rfl,fixed⟩)
  | hold => exact .inl (.of_readers rfl fun _ fixed => ⟨rfl,fixed⟩)
  | turn _ _ turn => exact .inr turn

theorem Turn.splitter {l m : Ledger} (turn : Turn l m) (sound : Sound l.session l.pending) {p i : Nat}
    (behind : (l.session.pipe p).splitter = some i) : (m.session.pipe p).splitter = some i := by
  cases turn with
  | take s _ _ r _ free =>
    rw [pipe_takeDirect s r p (sound.reading.inside r (sound.reading.waiting r (by simp)))]
    split
    · split <;> exact behind
    · exact behind
  | attach s _ _ r _ d name _ _ first takes =>
    have other : p ≠ (s.reader r).pipe := by
      rintro rfl
      simp [first] at behind
    rw [splitter_attach s _ name p (sound.reading.pipe_inside takes),if_neg other]
    exact behind
  | move s _ _ r _ i o =>
    rw [splitter_moveTo s i o r p (sound.reading.inside r (sound.reading.waiting r (by simp)))]
    exact behind

/-- The readers that leave the graph read pipes under names of their own. -/
structure Labelled (s : Session) (names : List (Nat × String)) : Prop where
  inside : ∀ r name, (r,name) ∈ names → r < s.readers.size
  exported : ∀ r, r < s.readers.size →
    ((s.reader r).owner = .exported ↔ ∃ name, (r,name) ∈ names)
  called : ∀ r name, (r,name) ∈ names →
    (s.pipe (s.reader r).pipe).name = name ∧ (s.pipe (s.reader r).pipe).fixed = true
  distinct : ∀ r x name, (r,name) ∈ names → (x,name) ∈ names → r = x

namespace Labelled
variable {s t : Session} {names : List (Nat × String)}

theorem congr (labelled : Labelled s names) (same : Undisturbed s t) : Labelled t names where
  inside r name member := Nat.lt_of_lt_of_le (labelled.inside r name member) same.size
  exported r bound := by
    by_cases before : r < s.readers.size
    · rw [(same.reader r before).1]
      exact labelled.exported r before
    · have outside : ¬∃ name, (r,name) ∈ names := fun ⟨name,member⟩ =>
        before (labelled.inside r name member)
      exact ⟨fun owner => absurd owner (same.new r (by omega) bound),
        fun listed => absurd listed outside⟩
  called r name member := by
    rw [(same.reader r (labelled.inside r name member)).2.1]
    obtain ⟨before,fixed⟩ := labelled.called r name member
    obtain ⟨now,still⟩ := same.called _ fixed
    exact ⟨now.trans before,still⟩
  distinct := labelled.distinct

theorem of_turn {l m : Ledger} (labelled : Labelled l.session names) (turn : Turn l m)
    (sound : Sound l.session l.pending) : Labelled m.session names := by
  rcases turn.undisturbed sound with same | ⟨s,_,_,r,_,i,o,rfl,behind,holds,moved⟩
  · exact labelled.congr same
  rw [moved]
  have bound : r < s.readers.size := sound.reading.waiting r (by simp)
  have inside := sound.reading.inside r bound
  have readers (x : Nat) := reader_moveTo s i o r x bound
  have pipes (p : Nat) := pipe_moveTo s i o r p inside
  have size : (s.moveTo i o r).readers.size = s.readers.size := Array.size_modify
  have owner (x : Nat) : ((s.moveTo i o r).reader x).owner = (s.reader x).owner := by
    rw [readers]
    split <;> rfl
  constructor
  · intro x name member
    rw [size]
    exact labelled.inside x name member
  · intro x before
    rw [owner]
    exact labelled.exported x (size ▸ before)
  · intro x name member
    have before := labelled.inside x name member
    have called := labelled.called x name member
    have exported := (labelled.exported x before).mpr ⟨name,member⟩
    rw [readers]
    by_cases same : x = r
    · -- The export takes its name along.
      subst same
      rw [if_pos rfl,pipes,if_pos rfl]
      simpa [branchFor,exported] using called
    · have apart : (s.reader x).pipe ≠ s.pipes.size :=
        Nat.ne_of_lt (sound.reading.inside x before)
      rw [if_neg same,pipes,if_neg apart]
      split
      next together =>
        by_cases leaves : (s.reader r).owner = .exported
        · obtain ⟨other,listed⟩ := (labelled.exported r bound).mp leaves
          have equal : other = name := by
            rw [← (labelled.called r other listed).1,← together]
            exact called.1
          exact absurd (labelled.distinct x r name member (equal ▸ listed)) same
        · simpa [deserted,leaves] using called
      next => exact called
  · exact labelled.distinct

theorem of_pipes (labelled : Labelled s names) (readers : t.readers = s.readers)
    (called : ∀ p, (s.pipe p).fixed = true →
      (t.pipe p).name = (s.pipe p).name ∧ (t.pipe p).fixed = true) : Labelled t names :=
  labelled.congr (.of_readers readers called)

end Labelled

theorem Move.labelled {l m : Ledger} {names : List (Nat × String)} (move : Move l m)
    (sound : Sound l.session l.pending) (labelled : Labelled l.session names) :
    Labelled m.session names := by
  rcases move.undisturbed with same | turn
  · exact labelled.congr same
  · exact labelled.of_turn turn sound

theorem Moves.labelled {l m : Ledger} {names : List (Nat × String)} (moves : Moves l m)
    (kept : l.Kept) (labelled : Labelled l.session names) : Labelled m.session names := by
  induction moves with
  | refl => exact labelled
  | tail moves move ih => exact move.labelled (Moves.kept moves kept).1 ih

structure Streamed (s t : Session) (p : Nat) : Prop where
  shared : (t.pipe p).shared = (s.pipe p).shared
  name : (s.pipe p).shared = true → (t.pipe p).name = (s.pipe p).name

theorem Streamed.of_eq {s t : Session} {p : Nat} (same : t.pipe p = s.pipe p) : Streamed s t p :=
  ⟨by rw [same],fun _ => by rw [same]⟩

theorem Turn.streamed {l m : Ledger} (turn : Turn l m) (sound : Sound l.session l.pending) {p : Nat}
    (inside : p < l.session.pipes.size) : Streamed l.session m.session p := by
  cases turn with
  | take s _ _ r =>
    have bound := sound.reading.inside r (sound.reading.waiting r (by simp))
    have found := pipe_takeDirect s r p bound
    refine ⟨?_,fun shared => ?_⟩
    · rw [found]
      split
      · split <;> rfl
      · rfl
    · rw [found,if_pos shared,ite_self]
  | attach s _ _ r _ d name _ _ _ takes =>
    refine ⟨?_,fun _ => ?_⟩
    all_goals
      rw [pipe_attach s _ name p (sound.reading.pipe_inside takes)]
      split
      · simp
      · rfl
  | move s _ _ r _ i o behind =>
    have bound := sound.reading.inside r (sound.reading.waiting r (by simp))
    obtain ⟨_,_,duplicates⟩ := sound.splitting _ i behind
    have found := pipe_moveTo s i o r p bound
    rw [if_neg (Nat.ne_of_lt inside)] at found
    by_cases same : p = (s.reader r).pipe
    · rw [if_pos same] at found
      refine ⟨by rw [found]; rfl,fun shared => ?_⟩
      rw [same] at shared
      exact absurd shared (by simp [duplicates.own])
    · rw [if_neg same] at found
      exact .of_eq found

theorem Move.streamed {l m : Ledger} (move : Move l m) (sound : Sound l.session l.pending) {p : Nat}
    (inside : p < l.session.pipes.size) : Streamed l.session m.session p := by
  have old := Nat.ne_of_lt inside
  cases move with
  | anonymous s => exact .of_eq ((pipe_addAnonymous ..).trans (if_neg old))
  | named s => exact .of_eq ((pipe_addPipe ..).trans (if_neg old))
  | stream s _ _ spec => exact .of_eq ((pipe_addPipe s (.ofStream spec) p).trans (if_neg old))
  | paint s _ _ q media hint =>
    have found : (s.paint q media hint).pipe p = _ := pipe_modifyPipe ..
    refine ⟨?_,fun _ => ?_⟩
    all_goals
      rw [found]
      split <;> rfl
  | retitle s _ _ q name _ free =>
    have found : (s.retitle q name).pipe p = _ := pipe_modifyPipe ..
    refine ⟨by rw [found]; split <;> rfl,fun shared => ?_⟩
    have other : p ≠ q := by
      rintro rfl
      simp [(sound.naming.stream p shared).1] at free
    rw [found,if_neg fun both => other both.1]
  | place s _ _ list listed =>
    have found := pipe_addChain s listed p
    exact ⟨by rw [found,note_shared],fun _ => by rw [found,note_name]⟩
  | append => exact .of_eq rfl
  | connect s _ _ i pipes =>
    refine ⟨?_,fun _ => ?_⟩
    all_goals
      rw [pipe_putOutputs]
      split <;> rfl
  | output s => exact .of_eq ((pipe_addOutput ..).trans (if_neg old))
  | splice => exact .of_eq rfl
  | arguments => exact .of_eq rfl
  | hold => exact .of_eq rfl
  | turn _ _ turn => exact turn.streamed sound inside

theorem Closing.streamed {l m : Ledger} (closing : Closing l m) (sound : Sound l.session l.pending)
    {p : Nat} (inside : p < l.session.pipes.size) : Streamed l.session m.session p := by
  cases closing with
  | leave s _ _ q =>
    refine ⟨?_,fun _ => ?_⟩
    all_goals
      rw [pipe_addReader]
      split <;> simp
  | close => exact .of_eq rfl
  | move _ _ move => exact move.streamed sound inside

theorem Closings.streamed {l m : Ledger} (closings : Closings l m) (kept : l.Kept) {p : Nat}
    (outer : l.session.OuterPipe p) : Streamed l.session m.session p := by
  induction closings with
  | refl => exact .of_eq rfl
  | tail closings closing ih =>
    have inside := ((Closings.later closings kept).pipe p outer).1
    have next := closing.streamed (Closings.kept closings kept).1 inside
    exact ⟨next.shared.trans ih.shared,
      fun shared => (next.name (ih.shared.trans shared)).trans (ih.name shared)⟩

theorem Closings.unshared {l m : Ledger} (closings : Closings l m) (kept : l.Kept) {p : Nat}
    (own : (m.session.pipe p).shared = false) : (l.session.pipe p).shared = false := by
  cases shared : (l.session.pipe p).shared with
  | false => rfl
  | true =>
    have outside : ¬ l.session.Branch p := fun ⟨j,_,member⟩ => by
      simp [kept.1.feeding.own j p member] at shared
    have still := (Closings.streamed closings kept ⟨inside_of_shared shared,outside⟩).shared
    rw [own,shared] at still
    cases still

theorem Move.completed {l m : Ledger} (move : Move l m) :
    m.session.completed = l.session.completed := by
  cases move with
  | place => rw [addChain_eq]
  | connect s _ _ i pipes =>
    obtain ⟨_,_,record⟩ := putOutputs_eq s i pipes
    rw [record]
  | turn _ _ turn => cases turn <;> rfl
  | _ => rfl

theorem Moves.completed {l m : Ledger} (moves : Moves l m) :
    m.session.completed = l.session.completed := by
  induction moves with
  | refl => rfl
  | tail _ move ih => exact move.completed.trans ih

theorem Labelled.of_leave {s : Session} {names : List (Nat × String)} (labelled : Labelled s names) {p : Nat} {name : String}
    (called : (s.pipe p).name = name ∧ (s.pipe p).fixed = true)
    (fresh : ∀ r, (r,name) ∉ names) :
    Labelled (s.addReader p .exported) (names ++ [(s.readers.size,name)]) := by
  have size : (s.addReader p .exported).readers.size = s.readers.size + 1 := by
    simp [addReader_eq]
  have readers (r : Nat) := reader_addReader s p .exported r
  have same (q : Nat) : ((s.addReader p .exported).pipe q).name = (s.pipe q).name ∧
      ((s.addReader p .exported).pipe q).fixed = (s.pipe q).fixed := by
    rw [pipe_addReader]
    split <;> simp
  have old (r : Nat) (name : String) (member : (r,name) ∈ names) : r ≠ s.readers.size :=
    Nat.ne_of_lt (labelled.inside r name member)
  have cases (r : Nat) (other : String) (member : (r,other) ∈ names ++ [(s.readers.size,name)]) :
      (r,other) ∈ names ∨ (r = s.readers.size ∧ other = name) := by simpa using member
  constructor
  · intro r other member
    rcases cases r other member with before | ⟨rfl,_⟩
    · have := labelled.inside r other before
      omega
    · omega
  · intro r bound
    rw [readers]
    by_cases last : r = s.readers.size
    · simp only [last,if_true,true_iff]
      exact ⟨name,by simp⟩
    · rw [if_neg last,labelled.exported r (by omega)]
      simp [last]
  · intro r other member
    rw [readers]
    rcases cases r other member with before | ⟨rfl,rfl⟩
    · rw [if_neg (old r other before),(same _).1,(same _).2]
      exact labelled.called r other before
    · rw [if_pos rfl,(same _).1,(same _).2]
      exact called
  · intro r x other first second
    rcases cases r other first with before | ⟨rfl,rfl⟩ <;>
      rcases cases x _ second with before' | ⟨rfl,same⟩
    · exact labelled.distinct r x other before before'
    · exact absurd (same ▸ before) (fresh r)
    · exact absurd before' (fresh x)
    · rfl

end MediaGraph.Session
