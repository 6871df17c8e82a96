import MediaGraph.Proofs.Calls
import MediaGraph.Proofs.Reading

/-! The splits that the graph puts behind pipes by itself.
A split reads its pipe and nothing else, stands in a chain of its own, and has its
number of outputs as its argument. What a reader gets is one of three steps. -/
namespace MediaGraph.Session

/-- The stage is a split that was put behind a pipe. -/
def Made (s : Session) (i : Nat) : Prop := ∃ p, (s.pipe p).splitter = some i

def Branch (s : Session) (p : Nat) : Prop := ∃ i, s.Made i ∧ p ∈ (s.stage i).outputs

theorem made_attach {s : Session} {p i : Nat} {name : String} (inside : p < s.pipes.size)
    (after : (s.attach p name).Made i) : i = s.stages.size ∨ s.Made i := by
  obtain ⟨q,behind⟩ := after
  rw [splitter_attach s p name q inside] at behind
  split at behind
  · exact Or.inl (Option.some.inj behind).symm
  · exact Or.inr ⟨q,behind⟩

theorem branch_attach {s : Session} {p q : Nat} {name : String} (inside : p < s.pipes.size)
    (after : (s.attach p name).Branch q) : s.Branch q := by
  obtain ⟨i,made,listed⟩ := after
  rw [stage_attach] at listed
  split at listed
  · simp at listed
  next old =>
    rcases made_attach inside made with last | before
    · exact absurd last old
    · exact ⟨i,before,listed⟩

def duplicator (media : Media) (n : Nat) : Operation :=
  ⟨if media = .audio then "asplit" else "split",none,toString n,.dynamic⟩

theorem withArguments_number (op : Operation) (n : Nat) :
    op.withArguments [.ofNat n] = { op with args := toString n } := rfl

/-- Stage `i` with operation `o` and reader `r` duplicates pipe `p`. -/
structure Duplicates (s : Session) (p i o r : Nat) : Prop where
  holds : (s.stage i).operation = some o
  reads : (s.stage i).inputs = [r]
  alone : (s.stage i).prev = none ∧ (s.stage i).next = none
  reader : s.reader r = ⟨p,.stage i,true⟩
  operation : s.operation o = duplicator (s.pipe p).media (s.stage i).outputs.size
  media : (s.pipe p).media = .video ∨ (s.pipe p).media = .audio
  own : (s.pipe p).shared = false

def Splitting (s : Session) : Prop :=
  ∀ p i, (s.pipe p).splitter = some i → ∃ o r, s.Duplicates p i o r

structure Holding (s : Session) : Prop where
  inside : ∀ i o, (s.stage i).operation = some o → o < s.operations.size
  unique : ∀ i j o, (s.stage i).operation = some o → (s.stage j).operation = some o → i = j

namespace Holding
variable {s t : Session}

theorem of_new (serial : Nat) (catalog : Catalog) : Holding (new serial catalog) := by
  have noStage (i : Nat) : (new serial catalog).stage i = .empty := rfl
  constructor <;> simp [noStage,Stage.empty]

theorem congr (holding : Holding s) (stages : ∀ i, (t.stage i).operation = (s.stage i).operation)
    (size : t.operations.size = s.operations.size) : Holding t where
  inside i o holds := size ▸ holding.inside i o (stages i ▸ holds)
  unique i j o first second := holding.unique i j o (stages i ▸ first) (stages j ▸ second)

theorem push (holding : Holding s) {i : Nat}
    (stages : ∀ j, (t.stage j).operation =
      if j = i then some s.operations.size else (s.stage j).operation)
    (size : t.operations.size = s.operations.size + 1) : Holding t := by
  have old (j : Nat) : (s.stage j).operation ≠ some s.operations.size := fun holds =>
    Nat.lt_irrefl _ (holding.inside j _ holds)
  constructor
  · intro j o holds
    rw [stages] at holds
    split at holds
    · cases holds
      omega
    · have := holding.inside j o holds
      omega
  · intro j k o first second
    rw [stages] at first second
    split at first <;> split at second
    next sameJ sameK => rw [sameJ,sameK]
    next =>
      cases first
      exact absurd second (old k)
    next =>
      cases second
      exact absurd first (old j)
    next => exact holding.unique j k o first second

end Holding

namespace Splitting
variable {s t : Session}

theorem of_new (serial : Nat) (catalog : Catalog) : Splitting (new serial catalog) := by
  intro p i behind
  have noPipe : (new serial catalog).pipe p = .anonymous "" := rfl
  simp [noPipe,Pipe.anonymous] at behind

theorem made_holds (splitting : Splitting s) {i : Nat} (made : s.Made i) :
    (s.stage i).operation ≠ none := by
  obtain ⟨p,behind⟩ := made
  obtain ⟨o,_,duplicates⟩ := splitting p i behind
  simp [duplicates.holds]

theorem pipe_unique (splitting : Splitting s) {p q i : Nat} (first : (s.pipe p).splitter = some i)
    (second : (s.pipe q).splitter = some i) : p = q := by
  obtain ⟨_,r,duplicates⟩ := splitting p i first
  obtain ⟨_,x,others⟩ := splitting q i second
  have same : r = x := by simpa [duplicates.reads] using others.reads
  have readers := duplicates.reader.symm.trans (same ▸ others.reader)
  exact congrArg Reader.pipe readers

theorem congr (splitting : Splitting s) (splitters : ∀ p, (t.pipe p).splitter = (s.pipe p).splitter)
    (pipes : ∀ p, (s.pipe p).splitter ≠ none → (t.pipe p).shared = (s.pipe p).shared ∧
      ((s.pipe p).media ≠ .unknown → (t.pipe p).media = (s.pipe p).media))
    (stages : ∀ i, s.Made i → t.stage i = s.stage i)
    (readers : ∀ i r, s.Made i → r ∈ (s.stage i).inputs → t.reader r = s.reader r)
    (operations : ∀ i o, s.Made i → (s.stage i).operation = some o →
      t.operation o = s.operation o) : Splitting t := by
  intro p i behind
  rw [splitters] at behind
  obtain ⟨o,r,duplicates⟩ := splitting p i behind
  have stage := stages i ⟨p,behind⟩
  obtain ⟨shared,kept⟩ := pipes p (by simp [behind])
  have media : (t.pipe p).media = (s.pipe p).media := by
    refine kept fun unknown => ?_
    rcases duplicates.media with video | audio
    · simp [unknown] at video
    · simp [unknown] at audio
  refine ⟨o,r,?_⟩
  constructor
  case holds => rw [stage]; exact duplicates.holds
  case reads => rw [stage]; exact duplicates.reads
  case alone => rw [stage]; exact duplicates.alone
  case reader => rw [readers i r ⟨p,behind⟩ (by simp [duplicates.reads])]; exact duplicates.reader
  case operation =>
    rw [operations i o ⟨p,behind⟩ duplicates.holds,stage,media]; exact duplicates.operation
  case media => rw [media]; exact duplicates.media
  case own => rw [shared]; exact duplicates.own

theorem owner_of_made (splitting : Splitting s) {i r : Nat} (made : s.Made i)
    (member : r ∈ (s.stage i).inputs) : (s.reader r).owner = .stage i := by
  obtain ⟨p,behind⟩ := made
  obtain ⟨o,x,duplicates⟩ := splitting p i behind
  rw [duplicates.reads,List.mem_singleton] at member
  rw [member,duplicates.reader]

theorem made_inside (splitting : Splitting s) {i : Nat} (made : s.Made i) : i < s.stages.size :=
  inside_of_holds (splitting.made_holds made)

theorem of_attach (splitting : Splitting s) (holding : Holding s) {pending : List Nat}
    (reading : Reading s pending) {p : Nat} {name subject : String} (inside : p < s.pipes.size)
    (own : (s.pipe p).shared = false)
    (kind : Helper.split.filter (s.pipe p).media subject = .ok name) :
    Splitting (s.attach p name) := by
  have pipes (q : Nat) := pipe_attach s p name q inside
  have stages (j : Nat) := stage_attach s p name j
  have readers (x : Nat) := reader_attach s p name x
  have operations (k : Nat) := operation_attach s p name k
  have named : ((s.pipe p).media = .video ∨ (s.pipe p).media = .audio) ∧
      name = if (s.pipe p).media = .audio then "asplit" else "split" := by
    cases media : (s.pipe p).media <;> simp [media,Helper.filter] at kind ⊢ <;> exact kind.symm
  intro q i behind
  by_cases same : q = p
  · subst same
    rw [pipes,if_pos rfl] at behind
    obtain rfl : s.stages.size = i := Option.some.inj behind
    refine ⟨s.operations.size,s.readers.size,?_⟩
    have pipe := pipes q
    rw [if_pos rfl] at pipe
    constructor
    · simp [stages]
    · simp [stages]
    · simp [stages]
    · simp [readers]
    · simp [stages,operations,pipe,duplicator,withArguments_number,Operation.named,← named.2]
    · simpa [pipe] using named.1
    · simpa [pipe] using own
  · rw [pipes,if_neg same] at behind
    obtain ⟨o,r,duplicates⟩ := splitting q i behind
    have stage : (s.attach p name).stage i = s.stage i := by
      rw [stages,if_neg (by have := splitting.made_inside ⟨q,behind⟩; omega)]
    have reader : (s.attach p name).reader r = s.reader r := by
      have bound := ((reading.pads i r).mp (by simp [duplicates.reads])).1
      rw [readers,if_neg (by omega)]
    have operation : (s.attach p name).operation o = s.operation o := by
      have bound := holding.inside i o duplicates.holds
      rw [operations,if_neg (by omega)]
    have pipe : (s.attach p name).pipe q = s.pipe q := by rw [pipes,if_neg same]
    refine ⟨o,r,?_⟩
    constructor
    · rw [stage]; exact duplicates.holds
    · rw [stage]; exact duplicates.reads
    · rw [stage]; exact duplicates.alone
    · rw [reader]; exact duplicates.reader
    · rw [operation,stage,pipe]; exact duplicates.operation
    · rw [pipe]; exact duplicates.media
    · rw [pipe]; exact duplicates.own

theorem of_moveTo (splitting : Splitting s) (holding : Holding s) {i o r : Nat}
    (behind : (s.pipe (s.reader r).pipe).splitter = some i)
    (holds : (s.stage i).operation = some o) (bound : r < s.readers.size)
    (inside : (s.reader r).pipe < s.pipes.size)
    (apart : ∀ k, (s.reader r).owner = .stage k → ¬ s.Made k) : Splitting (s.moveTo i o r) := by
  have made : s.Made i := ⟨_,behind⟩
  have pipes (q : Nat) := pipe_moveTo s i o r q inside
  have stages (j : Nat) := stage_moveTo s i o r j (splitting.made_inside made)
  have readers (x : Nat) := reader_moveTo s i o r x bound
  have operations (k : Nat) := operation_moveTo s i o r k (holding.inside i o holds)
  have splitters (q : Nat) (j : Nat) (after : ((s.moveTo i o r).pipe q).splitter = some j) :
      q ≠ s.pipes.size ∧ (s.pipe q).splitter = some j := by
    rw [pipes] at after
    split at after
    · simp [branchFor] at after
    next other =>
      split at after
      · exact ⟨other,after⟩
      · exact ⟨other,after⟩
  intro q j after
  obtain ⟨other,before⟩ := splitters q j after
  obtain ⟨k,x,duplicates⟩ := splitting q j before
  have pipe : ((s.moveTo i o r).pipe q).media = (s.pipe q).media ∧
      ((s.moveTo i o r).pipe q).shared = (s.pipe q).shared := by
    rw [pipes,if_neg other]
    split <;> exact ⟨rfl,rfl⟩
  have reader : (s.moveTo i o r).reader x = s.reader x := by
    rw [readers,if_neg]
    rintro rfl
    exact apart j (by rw [duplicates.reader]) ⟨q,before⟩
  refine ⟨k,x,?_⟩
  by_cases same : j = i
  · subst same
    have source : q = (s.reader r).pipe := splitting.pipe_unique before behind
    have operation : k = o := Option.some.inj (duplicates.holds.symm.trans holds)
    have stage := stages j
    rw [if_pos rfl] at stage
    constructor
    · rw [stage]; exact duplicates.holds
    · rw [stage]; exact duplicates.reads
    · rw [stage]; exact duplicates.alone
    · rw [reader]; exact duplicates.reader
    · rw [operations,if_pos operation,stage,pipe.1,duplicates.operation]
      simp [duplicator,withArguments_number]
    · rw [pipe.1]; exact duplicates.media
    · rw [pipe.2]; exact duplicates.own
  · have stage := stages j
    rw [if_neg same] at stage
    have operation : k ≠ o := fun equal =>
      same (holding.unique j i o (equal ▸ duplicates.holds) holds)
    constructor
    · rw [stage]; exact duplicates.holds
    · rw [stage]; exact duplicates.reads
    · rw [stage]; exact duplicates.alone
    · rw [reader]; exact duplicates.reader
    · rw [operations,if_neg operation,stage,pipe.1]; exact duplicates.operation
    · rw [pipe.1]; exact duplicates.media
    · rw [pipe.2]; exact duplicates.own

end Splitting
end MediaGraph.Session
