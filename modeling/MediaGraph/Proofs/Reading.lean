import MediaGraph.Proofs.Feeding

/-! Which reader has a pipe.
A pipe that is not shared is taken by one reader. Between the steps of a call some
readers are pending: their turn to get a pipe has come and not passed yet. -/
namespace MediaGraph.Session

/-- A reader that leaves the graph, or whose stage has an operation. -/
def Active (s : Session) (r : Nat) : Prop :=
  match (s.reader r).owner with
  | .stage i => (s.stage i).operation ≠ none
  | .exported => True

theorem active_congr {s t : Session} {r : Nat} (owner : (t.reader r).owner = (s.reader r).owner)
    (working : ∀ i, (s.reader r).owner = .stage i →
      ((t.stage i).operation ≠ none ↔ (s.stage i).operation ≠ none)) :
    t.Active r ↔ s.Active r := by
  unfold Active
  rw [owner]
  cases kind : (s.reader r).owner with
  | exported => rfl
  | stage i => exact working i kind

def Takes (s : Session) (pending : List Nat) (r p : Nat) : Prop :=
  (s.reader r).resolved = true ∧ r ∉ pending ∧ (s.reader r).pipe = p

/-- Readers stand on the pads of their stages, and the flags of readers and pipes
agree on which of them have their pipe. -/
structure Reading (s : Session) (pending : List Nat) : Prop where
  pads : ∀ i r, r ∈ (s.stage i).inputs ↔ r < s.readers.size ∧ (s.reader r).owner = .stage i
  distinct : ∀ i, (s.stage i).inputs.Nodup
  inside : ∀ r, r < s.readers.size → (s.reader r).pipe < s.pipes.size
  active : ∀ r, r < s.readers.size → (s.Active r ↔ (s.reader r).resolved = true ∨ r ∈ pending)
  waiting : ∀ r, r ∈ pending → r < s.readers.size
  once : pending.Nodup
  taken : ∀ p, (s.pipe p).shared = false → ((s.pipe p).taken = true ↔ ∃ r, s.Takes pending r p)
  sole : ∀ p, (s.pipe p).shared = false → ∀ r other, s.Takes pending r p →
    s.Takes pending other p → r = other
  noted : ∀ p, (s.pipe p).shared = false →
    ∀ r, r ∈ (s.pipe p).readers ↔ r < s.readers.size ∧ (s.reader r).pipe = p
  notedOnce : ∀ p, (s.pipe p).shared = false → (s.pipe p).readers.Nodup

theorem inside_of_resolved {s : Session} {r : Nat} (resolved : (s.reader r).resolved = true) :
    r < s.readers.size := by
  refine getD_bound s.readers ⟨0,.exported,false⟩ r fun same => ?_
  rw [reader,same] at resolved
  simp at resolved

/-! Readers that are added. -/

/-- The list has every reader of a place, and has it once. -/
def Lists (s : Session) (list : List Nat) (belongs : Reader → Prop) : Prop :=
  list.Nodup ∧ ∀ r, r ∈ list ↔ r < s.readers.size ∧ belongs (s.reader r)

def Newcomers (s t : Session) (more : List Nat) (belongs : Reader → Prop) : Prop :=
  more.Nodup ∧ ∀ r, r ∈ more ↔ s.readers.size ≤ r ∧ r < t.readers.size ∧ belongs (t.reader r)

theorem newcomers_none {s t : Session} {belongs : Reader → Prop}
    (others : ∀ r, s.readers.size ≤ r → r < t.readers.size → ¬ belongs (t.reader r)) :
    s.Newcomers t [] belongs := by
  refine ⟨List.nodup_nil,fun r => ?_⟩
  simp only [List.not_mem_nil,false_iff]
  rintro ⟨low,high,mine⟩
  exact others r low high mine

theorem newcomers_one {s t : Session} {belongs : Reader → Prop}
    (size : t.readers.size = s.readers.size + 1) (mine : belongs (t.reader s.readers.size)) :
    s.Newcomers t [s.readers.size] belongs := by
  refine ⟨by simp,fun r => ?_⟩
  rw [List.mem_singleton]
  constructor
  · rintro rfl
    exact ⟨Nat.le_refl _,by omega,mine⟩
  · omega

/-- Readers come behind the ones that are there. Stages and pipes list the ones that are
theirs behind the ones that they had. -/
structure Grown (s t : Session) : Prop where
  readers : s.readers.size ≤ t.readers.size
  old : ∀ r, r < s.readers.size → t.reader r = s.reader r
  pipes : s.pipes.size ≤ t.pipes.size
  inside : ∀ r, s.readers.size ≤ r → r < t.readers.size → (t.reader r).pipe < t.pipes.size
  working : ∀ i, (s.stage i).inputs ≠ [] →
    ((t.stage i).operation ≠ none ↔ (s.stage i).operation ≠ none)
  inputs : ∀ i, ∃ more, (t.stage i).inputs = (s.stage i).inputs ++ more ∧
    s.Newcomers t more fun reader => reader.owner = .stage i
  own : ∀ p, (t.pipe p).shared = false → (s.pipe p).shared = false
  taken : ∀ p, (t.pipe p).taken = (s.pipe p).taken
  noted : ∀ p, (t.pipe p).shared = false → ∃ more,
    (t.pipe p).readers = (s.pipe p).readers ++ more ∧
      s.Newcomers t more fun reader => reader.pipe = p

theorem Grown.append {s t : Session} (grown : Grown s t) {list more : List Nat}
    {belongs : Reader → Prop} (listed : s.Lists list belongs)
    (new : s.Newcomers t more belongs) : t.Lists (list ++ more) belongs := by
  have size := grown.readers
  constructor
  · refine List.nodup_append.mpr ⟨listed.1,new.1,?_⟩
    rintro r before _ after rfl
    have early := ((listed.2 r).mp before).1
    have late := ((new.2 r).mp after).1
    omega
  · intro r
    rw [List.mem_append,listed.2,new.2]
    by_cases early : r < s.readers.size
    · rw [grown.old r early]
      constructor
      · rintro (⟨_,mine⟩ | ⟨late,_⟩)
        · exact ⟨by omega,mine⟩
        · omega
      · rintro ⟨_,mine⟩
        exact Or.inl ⟨early,mine⟩
    · constructor
      · rintro (⟨before,_⟩ | ⟨_,bound,mine⟩)
        · exact absurd before early
        · exact ⟨bound,mine⟩
      · rintro ⟨bound,mine⟩
        exact Or.inr ⟨by omega,bound,mine⟩

section Added
variable {s : Session}

theorem grown_addReader {p : Nat} (inside : p < s.pipes.size) :
    Grown s (s.addReader p .exported) := by
  have size : (s.addReader p .exported).readers.size = s.readers.size + 1 := by
    simp [addReader_eq]
  have stages (i : Nat) : (s.addReader p .exported).stage i = s.stage i := by
    rw [addReader_eq]
    rfl
  have pipes (q : Nat) := pipe_addReader s p .exported q
  have new : (s.addReader p .exported).reader s.readers.size = ⟨p,.exported,false⟩ := by
    rw [reader_addReader,if_pos rfl]
  have only (r : Nat) (low : s.readers.size ≤ r) (high : r < (s.addReader p .exported).readers.size) :
      (s.addReader p .exported).reader r = ⟨p,.exported,false⟩ := by
    obtain rfl : r = s.readers.size := by omega
    exact new
  constructor
  case readers => omega
  case old =>
    intro r before
    rw [reader_addReader,if_neg (by omega)]
  case pipes => simp [addReader_eq]
  case inside =>
    intro r low high
    rw [only r low high]
    simpa [addReader_eq] using inside
  case working =>
    intro i _
    rw [stages]
  case inputs =>
    intro i
    refine ⟨[],by simp [stages],newcomers_none fun r low high => ?_⟩
    simp [only r low high]
  case own =>
    intro q own
    rw [pipes] at own
    split at own
    · simpa using own
    · exact own
  case taken =>
    intro q
    rw [pipes]
    split <;> simp
  case noted =>
    intro q own
    by_cases same : q = p
    · subst same
      rw [pipes,if_pos ⟨rfl,inside⟩] at own ⊢
      exact ⟨_,note_readers _ _ (by simpa using own),newcomers_one size (by rw [new])⟩
    · refine ⟨[],by simp [pipes,same],newcomers_none fun r low high => ?_⟩
      rw [only r low high]
      exact Ne.symm same

theorem grown_attach {p : Nat} (name : String) (inside : p < s.pipes.size) :
    Grown s (s.attach p name) := by
  have size : (s.attach p name).readers.size = s.readers.size + 1 := Array.size_push ..
  have pipesSize : (s.attach p name).pipes.size = s.pipes.size := Array.size_modify
  have pipes (q : Nat) := pipe_attach s p name q inside
  have bare : s.stage s.stages.size = .empty := by simp [stage]
  have new : (s.attach p name).reader s.readers.size = ⟨p,.stage s.stages.size,true⟩ := by
    rw [reader_attach,if_pos rfl]
  have only (r : Nat) (low : s.readers.size ≤ r) (high : r < (s.attach p name).readers.size) :
      (s.attach p name).reader r = ⟨p,.stage s.stages.size,true⟩ := by
    obtain rfl : r = s.readers.size := by omega
    exact new
  constructor
  case readers => omega
  case old =>
    intro r before
    rw [reader_attach,if_neg (by omega)]
  case pipes => omega
  case inside =>
    intro r low high
    rw [only r low high,pipesSize]
    exact inside
  case working =>
    intro i some
    have other : i ≠ s.stages.size := by
      rintro rfl
      simp [bare,Stage.empty] at some
    rw [stage_attach,if_neg other]
  case inputs =>
    intro i
    rw [stage_attach]
    by_cases last : i = s.stages.size
    · rw [if_pos last,last,bare]
      exact ⟨_,rfl,newcomers_one size (by rw [new])⟩
    · rw [if_neg last]
      refine ⟨[],by simp,newcomers_none fun r low high owner => ?_⟩
      rw [only r low high] at owner
      exact last (Owner.stage.inj owner).symm
  case own =>
    intro q own
    rw [pipes] at own
    split at own
    · simpa using own
    · exact own
  case taken =>
    intro q
    rw [pipes]
    split <;> simp
  case noted =>
    intro q own
    by_cases same : q = p
    · subst same
      rw [pipes,if_pos rfl] at own ⊢
      exact ⟨_,note_readers _ _ (by simpa using own),newcomers_one size (by rw [new])⟩
    · refine ⟨[],by simp [pipes,same],newcomers_none fun r low high => ?_⟩
      rw [only r low high]
      exact Ne.symm same

theorem grown_addChain {list : List Nat} (inside : ∀ p ∈ list, p < s.pipes.size) :
    Grown s (s.addChain list) := by
  have size := readers_size_addChain s list
  have bare : s.stage s.stages.size = .empty := by simp [stage]
  have pipes := pipe_addChain s inside
  constructor
  case readers => omega
  case old => exact reader_addChain_old s list
  case pipes => exact Nat.le_of_eq (pipes_size_addChain s list).symm
  case inside =>
    intro r low high
    obtain ⟨k,_,_,found⟩ := reader_addChain_late s list r low high
    rw [found,pipes_size_addChain]
    exact inside _ (List.getElem_mem _)
  case working =>
    intro i some
    have other : i ≠ s.stages.size := by
      rintro rfl
      simp [bare,Stage.empty] at some
    rw [stage_addChain,if_neg other]
  case inputs =>
    intro i
    rw [stage_addChain]
    by_cases last : i = s.stages.size
    · rw [if_pos last,last,bare]
      refine ⟨_,rfl,List.nodup_range',fun r => ?_⟩
      rw [List.mem_range'_1,size]
      constructor
      · rintro ⟨low,high⟩
        obtain ⟨k,_,_,found⟩ := reader_addChain_late s list r low (by omega)
        exact ⟨low,high,by rw [found]⟩
      · rintro ⟨low,high,_⟩
        exact ⟨low,high⟩
    · rw [if_neg last]
      refine ⟨[],by simp,newcomers_none fun r low high owner => ?_⟩
      obtain ⟨k,_,_,found⟩ := reader_addChain_late s list r low high
      rw [found] at owner
      exact last (Owner.stage.inj owner).symm
  case own =>
    intro p own
    simpa [pipes] using own
  case taken =>
    intro p
    rw [pipes,note_taken]
  case noted =>
    intro p own
    rw [pipes] at own ⊢
    refine ⟨_,note_readers _ _ (by simpa using own),placesOf_nodup ..,fun r => ?_⟩
    rw [mem_placesOf]
    constructor
    · rintro ⟨k,found,rfl⟩
      obtain ⟨small,value⟩ := List.getElem?_eq_some_iff.mp found
      exact ⟨by omega,by omega,by rw [reader_addChain_new s list k small]; exact value⟩
    · rintro ⟨low,high,points⟩
      obtain ⟨k,small,same,found⟩ := reader_addChain_late s list r low high
      rw [found] at points
      exact ⟨k,List.getElem?_eq_some_iff.mpr ⟨small,points⟩,same⟩

end Added

namespace Reading
variable {s t : Session} {pending : List Nat}

theorem of_new (serial : Nat) (catalog : Catalog) : Reading (new serial catalog) [] := by
  have noStage (i : Nat) : (new serial catalog).stage i = .empty := rfl
  have noPipe (p : Nat) : (new serial catalog).pipe p = .anonymous "" := rfl
  have noReader (r : Nat) : (new serial catalog).reader r = ⟨0,.exported,false⟩ := rfl
  constructor <;>
    simp [noStage,noPipe,noReader,Stage.empty,Pipe.anonymous,Takes,show (new serial catalog).readers.size = 0 from rfl]

theorem owner_ne (reading : Reading s pending) {r : Nat} (inside : r < s.readers.size) :
    (s.reader r).owner ≠ .stage s.stages.size := by
  intro owner
  have member := (reading.pads s.stages.size r).mpr ⟨inside,owner⟩
  have bare : s.stage s.stages.size = .empty := by simp [stage]
  simp [bare,Stage.empty] at member

theorem pipe_inside (reading : Reading s pending) {r p : Nat} (takes : s.Takes pending r p) :
    p < s.pipes.size :=
  takes.2.2 ▸ reading.inside r (inside_of_resolved takes.1)

theorem congr (reading : Reading s pending) (readers : t.readers = s.readers)
    (inputs : ∀ i, (t.stage i).inputs = (s.stage i).inputs)
    (working : ∀ i, (s.stage i).inputs ≠ [] →
      ((t.stage i).operation ≠ none ↔ (s.stage i).operation ≠ none))
    (size : s.pipes.size ≤ t.pipes.size)
    (pipes : ∀ p, (t.pipe p).shared = false → (s.pipe p).shared = false ∧
      (t.pipe p).taken = (s.pipe p).taken ∧ (t.pipe p).readers = (s.pipe p).readers) :
    Reading t pending := by
  have same (r : Nat) : t.reader r = s.reader r := by rw [reader,reader,readers]
  have takes (r p : Nat) : t.Takes pending r p ↔ s.Takes pending r p := by
    rw [Takes,Takes,same]
  constructor
  case pads =>
    intro i r
    rw [inputs,readers,same]
    exact reading.pads i r
  case distinct =>
    intro i
    rw [inputs]
    exact reading.distinct i
  case inside =>
    intro r inside
    rw [same]
    rw [readers] at inside
    exact Nat.lt_of_lt_of_le (reading.inside r inside) size
  case active =>
    intro r inside
    rw [readers] at inside
    rw [same,← reading.active r inside]
    refine active_congr (congrArg Reader.owner (same r)) fun i owner => working i ?_
    exact List.ne_nil_of_mem ((reading.pads i r).mpr ⟨inside,owner⟩)
  case waiting =>
    intro r member
    rw [readers]
    exact reading.waiting r member
  case once => exact reading.once
  case taken =>
    intro p own
    obtain ⟨before,taken,_⟩ := pipes p own
    simp only [taken,takes]
    exact reading.taken p before
  case sole =>
    intro p own r other first second
    exact reading.sole p (pipes p own).1 r other ((takes r p).mp first) ((takes other p).mp second)
  case noted =>
    intro p own r
    obtain ⟨before,_,noted⟩ := pipes p own
    rw [noted,readers,same]
    exact reading.noted p before r
  case notedOnce =>
    intro p own
    obtain ⟨before,_,noted⟩ := pipes p own
    rw [noted]
    exact reading.notedOnce p before

theorem idle_of_vacant (reading : Reading s []) {i r : Nat} (vacant : (s.stage i).operation = none)
    (member : r ∈ (s.stage i).inputs) : (s.reader r).resolved = false := by
  obtain ⟨bound,owner⟩ := (reading.pads i r).mp member
  have resting : ¬ s.Active r := by simp [Active,owner,vacant]
  rw [reading.active r bound] at resting
  simpa using resting

theorem of_hold (reading : Reading s []) {i : Nat} (op : Operation) (inside : i < s.stages.size)
    (vacant : (s.stage i).operation = none) : Reading (s.hold i op) (s.stage i).inputs := by
  have stages (j : Nat) := stage_hold s i op j
  have inputs (j : Nat) : ((s.hold i op).stage j).inputs = (s.stage j).inputs := by
    rw [stages]
    split <;> rfl
  have idle (r : Nat) (member : r ∈ (s.stage i).inputs) := reading.idle_of_vacant vacant member
  have takes (r p : Nat) : (s.hold i op).Takes (s.stage i).inputs r p ↔ s.Takes [] r p := by
    constructor
    · rintro ⟨resolved,_,points⟩
      exact ⟨resolved,by simp,points⟩
    · rintro ⟨resolved,_,points⟩
      refine ⟨resolved,fun member => ?_,points⟩
      exact absurd ((idle r member).symm.trans resolved) Bool.false_ne_true
  constructor
  case pads =>
    intro j r
    rw [inputs]
    exact reading.pads j r
  case distinct =>
    intro j
    rw [inputs]
    exact reading.distinct j
  case inside => exact reading.inside
  case active =>
    intro r bound
    have before := reading.active r bound
    simp only [List.not_mem_nil,or_false] at before
    rw [show (s.hold i op).reader r = s.reader r from rfl,← before,reading.pads i r]
    unfold Active
    rw [show (s.hold i op).reader r = s.reader r from rfl]
    cases owner : (s.reader r).owner with
    | exported => simp
    | stage j =>
      by_cases same : j = i
      · simp [stages,same,inside,show r < s.readers.size from bound]
      · simp [stages,same]
  case waiting =>
    intro r member
    exact ((reading.pads i r).mp member).1
  case once => exact reading.distinct i
  case taken =>
    intro p own
    simp only [takes]
    exact reading.taken p own
  case sole =>
    intro p own r other first second
    exact reading.sole p own r other ((takes r p).mp first) ((takes other p).mp second)
  case noted => exact reading.noted
  case notedOnce => exact reading.notedOnce

theorem of_takeDirect {r : Nat} (reading : Reading s (r :: pending))
    (free : (s.pipe (s.reader r).pipe).shared = true ∨ (s.pipe (s.reader r).pipe).taken = false) :
    Reading (s.takeDirect r) pending := by
  have bound : r < s.readers.size := reading.waiting r (by simp)
  obtain ⟨apart,once⟩ := List.nodup_cons.mp reading.once
  have readers (x : Nat) := reader_takeDirect s r x bound
  have pipes (q : Nat) := pipe_takeDirect s r q (reading.inside r bound)
  have owner (x : Nat) : ((s.takeDirect r).reader x).owner = (s.reader x).owner := by
    rw [readers]; split <;> rfl
  have points (x : Nat) : ((s.takeDirect r).reader x).pipe = (s.reader x).pipe := by
    rw [readers]; split <;> rfl
  have shared (q : Nat) : ((s.takeDirect r).pipe q).shared = (s.pipe q).shared := by
    rw [pipes]
    split
    · split <;> rfl
    · rfl
  have noted (q : Nat) : ((s.takeDirect r).pipe q).readers = (s.pipe q).readers := by
    rw [pipes]
    split
    · split <;> rfl
    · rfl
  have size : (s.takeDirect r).readers.size = s.readers.size := Array.size_modify
  have takes (x p : Nat) : (s.takeDirect r).Takes pending x p ↔
      s.Takes (r :: pending) x p ∨ (x = r ∧ (s.reader r).pipe = p) := by
    unfold Takes
    rw [points,readers]
    by_cases same : x = r
    · simp [same,apart]
    · simp [same]
  constructor
  case pads =>
    intro i x
    rw [size,owner]
    exact reading.pads i x
  case distinct => exact reading.distinct
  case inside =>
    intro x inside
    rw [points,show (s.takeDirect r).pipes.size = s.pipes.size from Array.size_modify]
    exact reading.inside x (size ▸ inside)
  case active =>
    intro x inside
    have before := reading.active x (size ▸ inside)
    have active : (s.takeDirect r).Active x ↔ s.Active x :=
      active_congr (owner x) fun _ _ => Iff.rfl
    rw [active,before,readers]
    by_cases same : x = r <;> simp [same]
  case waiting =>
    intro x member
    rw [size]
    exact reading.waiting x (by simp [member])
  case once => exact once
  case taken =>
    intro p own
    rw [shared] at own
    have before := reading.taken p own
    simp only [takes]
    rw [pipes]
    by_cases same : p = (s.reader r).pipe
    · rw [if_pos same,if_neg (by simp [own])]
      simp [same]
    · rw [if_neg same,before]
      simp [Ne.symm same]
  case sole =>
    intro p own x y first second
    rw [shared] at own
    have clash (z : Nat) (old : s.Takes (r :: pending) z p) (now : (s.reader r).pipe = p) : z = r := by
      subst now
      rcases free with isShared | untaken
      · simp [own] at isShared
      · simp [(reading.taken _ own).mpr ⟨z,old⟩] at untaken
    rcases (takes x p).mp first with oldX | ⟨rfl,nowX⟩ <;>
      rcases (takes y p).mp second with oldY | ⟨rfl,nowY⟩
    · exact reading.sole p own x y oldX oldY
    · exact clash x oldX nowY
    · exact (clash y oldY nowX).symm
    · rfl
  case noted =>
    intro p own x
    rw [shared] at own
    rw [noted,size,points]
    exact reading.noted p own x
  case notedOnce =>
    intro p own
    rw [shared] at own
    rw [noted]
    exact reading.notedOnce p own

theorem active_old (reading : Reading s pending) (grown : Grown s t) {r : Nat}
    (bound : r < s.readers.size) : t.Active r ↔ s.Active r := by
  refine active_congr (by rw [grown.old r bound]) fun i owner => grown.working i ?_
  exact List.ne_nil_of_mem ((reading.pads i r).mpr ⟨bound,owner⟩)

theorem of_grown (reading : Reading s pending) (grown : Grown s t) {later : List Nat}
    (active : ∀ r, r < t.readers.size →
      (t.Active r ↔ (t.reader r).resolved = true ∨ r ∈ later))
    (waiting : ∀ r, r ∈ later → r < t.readers.size) (once : later.Nodup)
    (taken : ∀ p, (s.pipe p).shared = false →
      ((s.pipe p).taken = true ↔ ∃ r, t.Takes later r p))
    (sole : ∀ p, (s.pipe p).shared = false → ∀ r other, t.Takes later r p →
      t.Takes later other p → r = other) : Reading t later := by
  have pads (i : Nat) : t.Lists (t.stage i).inputs fun reader => reader.owner = .stage i := by
    obtain ⟨more,inputs,new⟩ := grown.inputs i
    rw [inputs]
    exact grown.append ⟨reading.distinct i,reading.pads i⟩ new
  have noted (p : Nat) (own : (t.pipe p).shared = false) :
      t.Lists (t.pipe p).readers fun reader => reader.pipe = p := by
    obtain ⟨more,readers,new⟩ := grown.noted p own
    have before := grown.own p own
    rw [readers]
    exact grown.append ⟨reading.notedOnce p before,reading.noted p before⟩ new
  constructor
  case pads => exact fun i => (pads i).2
  case distinct => exact fun i => (pads i).1
  case inside =>
    intro r bound
    by_cases before : r < s.readers.size
    · rw [grown.old r before]
      exact Nat.lt_of_lt_of_le (reading.inside r before) grown.pipes
    · exact grown.inside r (Nat.le_of_not_lt before) bound
  case active => exact active
  case waiting => exact waiting
  case once => exact once
  case taken =>
    intro p own
    rw [grown.taken]
    exact taken p (grown.own p own)
  case sole => exact fun p own => sole p (grown.own p own)
  case noted => exact fun p own => (noted p own).2
  case notedOnce => exact fun p own => (noted p own).1

theorem of_idle (reading : Reading s pending) (grown : Grown s t) {more : List Nat}
    (idle : ∀ r, s.readers.size ≤ r → r < t.readers.size → (t.reader r).resolved = false)
    (active : ∀ r, s.readers.size ≤ r → r < t.readers.size → (t.Active r ↔ r ∈ more))
    (new : ∀ r, r ∈ more → s.readers.size ≤ r ∧ r < t.readers.size) (once : more.Nodup) :
    Reading t (pending ++ more) := by
  have size := grown.readers
  have takes (r p : Nat) : t.Takes (pending ++ more) r p ↔ s.Takes pending r p := by
    unfold Takes
    rw [List.mem_append,not_or]
    constructor
    · rintro ⟨resolved,⟨apart,_⟩,points⟩
      by_cases before : r < s.readers.size
      · rw [grown.old r before] at resolved points
        exact ⟨resolved,apart,points⟩
      · simp [idle r (Nat.le_of_not_lt before) (inside_of_resolved resolved)] at resolved
    · rintro ⟨resolved,apart,points⟩
      have before := inside_of_resolved resolved
      rw [grown.old r before]
      refine ⟨resolved,⟨apart,fun member => ?_⟩,points⟩
      have := (new r member).1
      omega
  refine reading.of_grown grown (fun r bound => ?_) (fun r member => ?_) ?_ (fun p own => ?_)
    fun p own r other first second => ?_
  · by_cases before : r < s.readers.size
    · have later : r ∉ more := fun member => by
        have := (new r member).1
        omega
      rw [reading.active_old grown before,reading.active r before,grown.old r before]
      simp [later]
    · have earlier : r ∉ pending := fun member => before (reading.waiting r member)
      rw [active r (Nat.le_of_not_lt before) bound,idle r (Nat.le_of_not_lt before) bound]
      simp [earlier]
  · rcases List.mem_append.mp member with before | after
    · have := reading.waiting r before
      omega
    · exact (new r after).2
  · refine List.nodup_append.mpr ⟨reading.once,once,?_⟩
    rintro r before _ after rfl
    have := reading.waiting r before
    have := (new r after).1
    omega
  · simp only [takes]
    exact reading.taken p own
  · exact reading.sole p own r other ((takes r p).mp first) ((takes other p).mp second)

theorem of_attach (reading : Reading s pending) {p d : Nat} (name : String)
    (own : (s.pipe p).shared = false) (takes : s.Takes pending d p) :
    Reading (s.attach p name) (d :: pending) := by
  have grown := grown_attach name (reading.pipe_inside takes)
  have size : (s.attach p name).readers.size = s.readers.size + 1 := Array.size_push ..
  have new : (s.attach p name).reader s.readers.size = ⟨p,.stage s.stages.size,true⟩ := by
    rw [reader_attach,if_pos rfl]
  have takesNow (x q : Nat) : (s.attach p name).Takes (d :: pending) x q ↔
      (s.Takes pending x q ∧ x ≠ d) ∨ (x = s.readers.size ∧ q = p) := by
    have waiting : s.readers.size ∉ d :: pending := fun member => by
      rcases List.mem_cons.mp member with same | before
      · exact absurd (inside_of_resolved takes.1) (by omega)
      · exact absurd (reading.waiting _ before) (Nat.lt_irrefl _)
    constructor
    · rintro ⟨resolved,apart,points⟩
      have bound := inside_of_resolved resolved
      by_cases last : x = s.readers.size
      · subst last
        rw [new] at points
        exact Or.inr ⟨rfl,points.symm⟩
      · rw [grown.old x (by omega)] at resolved points
        rw [List.mem_cons,not_or] at apart
        exact Or.inl ⟨⟨resolved,apart.2,points⟩,apart.1⟩
    · rintro (⟨⟨resolved,apart,points⟩,other⟩ | ⟨rfl,rfl⟩)
      · unfold Takes
        rw [grown.old x (inside_of_resolved resolved)]
        exact ⟨resolved,by simp [other,apart],points⟩
      · unfold Takes
        rw [new]
        exact ⟨rfl,waiting,rfl⟩
  refine reading.of_grown grown (fun x bound => ?_) (fun x member => ?_)
    (List.nodup_cons.mpr ⟨takes.2.1,reading.once⟩) (fun q ownQ => ?_) fun q ownQ x y first second => ?_
  · by_cases last : x = s.readers.size
    · simp [Active,last,new,stage_attach]
    · have before : x < s.readers.size := by omega
      rw [reading.active_old grown before,reading.active x before,grown.old x before,List.mem_cons]
      constructor
      · rintro (resolved | member)
        · exact Or.inl resolved
        · exact Or.inr (Or.inr member)
      · rintro (resolved | rfl | member)
        · exact Or.inl resolved
        · exact Or.inl takes.1
        · exact Or.inr member
  · have before : x < s.readers.size := by
      rcases List.mem_cons.mp member with rfl | before
      · exact inside_of_resolved takes.1
      · exact reading.waiting x before
    omega
  · rw [reading.taken q ownQ]
    simp only [takesNow]
    constructor
    · rintro ⟨x,before⟩
      by_cases same : q = p
      · exact ⟨s.readers.size,Or.inr ⟨rfl,same⟩⟩
      · refine ⟨x,Or.inl ⟨before,?_⟩⟩
        rintro rfl
        exact same (before.2.2.symm.trans takes.2.2)
    · rintro ⟨x,⟨before,_⟩ | ⟨_,rfl⟩⟩
      · exact ⟨x,before⟩
      · exact ⟨d,takes⟩
  · have clash (z : Nat) (before : s.Takes pending z q) (other : z ≠ d) (same : q = p) : False :=
      other (reading.sole q ownQ z d before (same ▸ takes))
    rcases (takesNow x q).mp first with ⟨beforeX,otherX⟩ | ⟨rfl,sameX⟩ <;>
      rcases (takesNow y q).mp second with ⟨beforeY,otherY⟩ | ⟨rfl,sameY⟩
    · exact reading.sole q ownQ x y beforeX beforeY
    · exact (clash x beforeX otherX sameY).elim
    · exact (clash y beforeY otherY sameX).elim
    · rfl

theorem of_moveTo {r : Nat} (reading : Reading s (r :: pending)) {i o : Nat}
    (inside : i < s.stages.size) (own : (s.pipe (s.reader r).pipe).shared = false) :
    Reading (s.moveTo i o r) pending := by
  have bound : r < s.readers.size := reading.waiting r (by simp)
  obtain ⟨apart,once⟩ := List.nodup_cons.mp reading.once
  have from_ := reading.inside r bound
  have readers (x : Nat) := reader_moveTo s i o r x bound
  have stages (j : Nat) := stage_moveTo s i o r j inside
  have pipes (q : Nat) := pipe_moveTo s i o r q from_
  have size : (s.moveTo i o r).readers.size = s.readers.size := Array.size_modify
  have owner (x : Nat) : ((s.moveTo i o r).reader x).owner = (s.reader x).owner := by
    rw [readers]; split <;> rfl
  have inputs (j : Nat) : ((s.moveTo i o r).stage j).inputs = (s.stage j).inputs := by
    rw [stages]; split <;> rfl
  have operation (j : Nat) : ((s.moveTo i o r).stage j).operation = (s.stage j).operation := by
    rw [stages]; split <;> rfl
  have points (x : Nat) : ((s.moveTo i o r).reader x).pipe =
      if x = r then s.pipes.size else (s.reader x).pipe := by
    rw [readers]; split <;> rfl
  have notLast (x : Nat) (before : x < s.readers.size) : (s.reader x).pipe ≠ s.pipes.size :=
    Nat.ne_of_lt (reading.inside x before)
  have old (q : Nat) (isOwn : ((s.moveTo i o r).pipe q).shared = false)
      (other : q ≠ s.pipes.size) : (s.pipe q).shared = false := by
    rw [pipes,if_neg other] at isOwn
    split at isOwn
    · exact isOwn
    · exact isOwn
  have takes (x q : Nat) : (s.moveTo i o r).Takes pending x q ↔
      (s.Takes (r :: pending) x q ∨ (x = r ∧ q = s.pipes.size)) := by
    unfold Takes
    rw [points,readers]
    by_cases same : x = r
    · subst same
      simp only [if_true,apart,not_false_eq_true,true_and,List.mem_cons,true_or,not_true,
        false_and,and_false,false_or]
      exact eq_comm
    · simp [same]
  constructor
  case pads =>
    intro j x
    rw [inputs,size,owner]
    exact reading.pads j x
  case distinct =>
    intro j
    rw [inputs]
    exact reading.distinct j
  case inside =>
    intro x before
    rw [points,show (s.moveTo i o r).pipes.size = s.pipes.size + 1 by simp [moveTo]]
    split
    · omega
    · have := reading.inside x (size ▸ before)
      omega
  case active =>
    intro x before
    have active : (s.moveTo i o r).Active x ↔ s.Active x :=
      active_congr (owner x) fun j _ => by rw [operation]
    rw [active,reading.active x (size ▸ before),readers]
    by_cases same : x = r <;> simp [same]
  case waiting =>
    intro x member
    rw [size]
    exact reading.waiting x (by simp [member])
  case once => exact once
  case taken =>
    intro q isOwn
    simp only [takes]
    by_cases last : q = s.pipes.size
    · rw [pipes,if_pos last]
      simp [branchFor,last]
    · have before := reading.taken q (old q isOwn last)
      rw [pipes,if_neg last]
      split
      · simpa [last,deserted] using before
      · simpa [last] using before
  case sole =>
    intro q isOwn x y first second
    by_cases last : q = s.pipes.size
    · have new (z : Nat) (now : (s.moveTo i o r).Takes pending z q) : z = r := by
        rcases (takes z q).mp now with before | ⟨same,_⟩
        · exact absurd (before.2.2.trans last) (notLast z (inside_of_resolved before.1))
        · exact same
      rw [new x first,new y second]
    · have before (z : Nat) (now : (s.moveTo i o r).Takes pending z q) :
          s.Takes (r :: pending) z q := by
        rcases (takes z q).mp now with old | ⟨_,same⟩
        · exact old
        · exact absurd same last
      exact reading.sole q (old q isOwn last) x y (before x first) (before y second)
  case noted =>
    intro q isOwn x
    rw [points,size]
    by_cases last : q = s.pipes.size
    · rw [pipes,if_pos last]
      by_cases same : x = r
      · simp [branchFor,same,bound,last]
      · simp only [branchFor,List.mem_singleton,same,if_false,false_iff]
        rintro ⟨before,equal⟩
        exact notLast x before (equal.trans last)
    · have before := reading.noted q (old q isOwn last) x
      rw [pipes,if_neg last]
      by_cases same : x = r
      · rw [if_pos same]
        have never : ¬(x < s.readers.size ∧ s.pipes.size = q) := fun both => last both.2.symm
        split
        · simp [deserted,same,Ne.symm last]
        next elsewhere =>
          rw [before]
          subst same
          simp [Ne.symm last,bound,Ne.symm elsewhere]
      · rw [if_neg same,← before]
        split
        · simp [deserted,same]
        · rfl
  case notedOnce =>
    intro q isOwn
    by_cases last : q = s.pipes.size
    · rw [pipes,if_pos last]
      simp [branchFor]
    · have before := reading.notedOnce q (old q isOwn last)
      rw [pipes,if_neg last]
      split
      · exact before.filter _
      · exact before

theorem of_addChain (reading : Reading s pending) {list : List Nat}
    (inside : ∀ p ∈ list, p < s.pipes.size) : Reading (s.addChain list) pending := by
  have grown := grown_addChain inside
  have idle (r : Nat) (low : s.readers.size ≤ r) (high : r < (s.addChain list).readers.size) :
      ((s.addChain list).reader r).resolved = false := by
    obtain ⟨k,_,_,found⟩ := reader_addChain_late s list r low high
    rw [found]
  have placeholder : ((s.addChain list).stage s.stages.size).operation = none := by
    rw [stage_addChain,if_pos rfl]
  have resting (r : Nat) (low : s.readers.size ≤ r) (high : r < (s.addChain list).readers.size) :
      (s.addChain list).Active r ↔ r ∈ [] := by
    obtain ⟨k,_,_,found⟩ := reader_addChain_late s list r low high
    simp [Active,found,placeholder]
  rw [← List.append_nil pending]
  exact reading.of_idle grown idle resting (by simp) List.nodup_nil

theorem of_addExport (reading : Reading s []) {p : Nat} (inside : p < s.pipes.size) :
    Reading (s.addReader p .exported) [s.readers.size] := by
  have size : (s.addReader p .exported).readers.size = s.readers.size + 1 := by
    simp [addReader_eq]
  have new : (s.addReader p .exported).reader s.readers.size = ⟨p,.exported,false⟩ := by
    rw [reader_addReader,if_pos rfl]
  refine reading.of_idle (grown_addReader inside) (fun r low high => ?_) (fun r low high => ?_)
    (by simp [size]) (by simp)
  · obtain rfl : r = s.readers.size := by omega
    rw [new]
  · obtain rfl : r = s.readers.size := by omega
    simp [Active,new]

end Reading
end MediaGraph.Session
