import Mathlib.Logic.Relation
import MediaGraph.Proofs.Moves

/-! Every move keeps a session sound. -/
namespace MediaGraph.Session
namespace Sound
variable {s : Session}

theorem of_append (sound : Sound s []) {i : Nat} (op : Operation)
    (holds : (s.stage i).operation ≠ none) (tail : (s.stage i).next = none)
    (other : ¬ s.Made i) : Sound (s.append i op) [] := by
  have inside := inside_of_holds holds
  have stages (j : Nat) := stage_append s i op j inside
  have bare : s.stage s.stages.size = .empty := by simp [stage]
  have outputs (j : Nat) : ((s.append i op).stage j).outputs = (s.stage j).outputs := by
    rw [stages]
    split
    next last => rw [last,bare]; rfl
    next => split <;> rfl
  have inputs (j : Nat) : ((s.append i op).stage j).inputs = (s.stage j).inputs := by
    rw [stages]
    split
    next last => rw [last,bare]; rfl
    next => split <;> rfl
  have operation (j : Nat) : ((s.append i op).stage j).operation =
      if j = s.stages.size then some s.operations.size else (s.stage j).operation := by
    rw [stages]
    split
    · rfl
    · split <;> rfl
  obtain ⟨chains,layout⟩ := sound.layout
  obtain ⟨front,member⟩ := layout.ends_with inside tail
  constructor
  case layout => exact ⟨_,layout.of_append op member⟩
  case feeding =>
    refine sound.feeding.congr outputs (fun j holds => ?_) fun _ => ⟨rfl,rfl⟩
    rw [operation]
    split
    · simp
    · exact holds
  case reading =>
    refine sound.reading.congr rfl inputs (fun j reads => ?_) (Nat.le_refl _)
      fun _ own => ⟨own,rfl,rfl⟩
    have old : j ≠ s.stages.size := by
      rintro rfl
      simp [bare,Stage.empty] at reads
    rw [operation,if_neg old]
  case splitting =>
    refine sound.splitting.congr (fun _ => rfl) (fun _ _ => ⟨rfl,fun _ => rfl⟩)
      (fun j made => ?_) (fun _ _ _ _ => rfl) fun j o made has => ?_
    · have old := sound.splitting.made_inside made
      have apart : j ≠ i := fun same => other (same ▸ made)
      rw [stages,if_neg (by omega),if_neg apart]
    · rw [operation_append,if_neg (Nat.ne_of_lt (sound.holding.inside j o has))]
  case holding => exact sound.holding.push operation (Array.size_push ..)
  case naming => exact sound.naming.congr rfl rfl fun _ => ⟨rfl,rfl,rfl⟩
  case outer => simp

theorem of_connect (sound : Sound s []) {i : Nat} {list : List Nat}
    (holds : (s.stage i).operation ≠ none) (bare : (s.stage i).outputs = #[])
    (distinct : list.Nodup) (inside : ∀ p ∈ list, p < s.pipes.size)
    (unfed : ∀ p ∈ list, (s.pipe p).fed = false) (other : ¬ s.Made i) :
    Sound (s.putOutputs i list) [] := by
  have stages (j : Nat) := stage_putOutputs s i list j (inside_of_holds holds)
  have same (p : Nat) : ∃ fed, (s.putOutputs i list).pipe p = { s.pipe p with fed := fed } := by
    rw [pipe_putOutputs]
    split
    · exact ⟨_,rfl⟩
    · exact ⟨_,rfl⟩
  obtain ⟨table,size,record⟩ := putOutputs_eq s i list
  have readers : (s.putOutputs i list).readers = s.readers := by rw [record]
  have operations : (s.putOutputs i list).operations = s.operations := by rw [record]
  have reader (r : Nat) : (s.putOutputs i list).reader r = s.reader r := by
    rw [Session.reader,Session.reader,readers]
  have operation (o : Nat) : (s.putOutputs i list).operation o = s.operation o := by
    rw [Session.operation,Session.operation,operations]
  obtain ⟨chains,layout⟩ := sound.layout
  constructor
  case layout =>
    refine ⟨chains,layout.congr (fun j => ?_) (by simp [record]) (by rw [record])⟩
    rw [stages]
    split <;> exact ⟨rfl,rfl⟩
  case feeding => exact sound.feeding.of_putOutputs holds bare distinct inside unfed
  case reading =>
    refine sound.reading.congr readers (fun j => ?_) (fun j _ => ?_) (by simp [record,size])
      fun p own => ?_
    · rw [stages]
      split <;> rfl
    · rw [stages]
      split <;> rfl
    · obtain ⟨fed,equal⟩ := same p
      rw [equal] at own ⊢
      exact ⟨own,rfl,rfl⟩
  case splitting =>
    refine sound.splitting.congr (fun p => ?_) (fun p _ => ?_) (fun j made => ?_)
      (fun _ r _ _ => reader r) fun _ o _ _ => operation o
    · obtain ⟨fed,equal⟩ := same p
      rw [equal]
    · obtain ⟨fed,equal⟩ := same p
      rw [equal]
      exact ⟨rfl,fun _ => rfl⟩
    · have apart : j ≠ i := fun equal => other (equal ▸ made)
      rw [stages,if_neg apart]
  case holding =>
    refine sound.holding.congr (fun j => ?_) (by rw [operations])
    rw [stages]
    split <;> rfl
  case naming =>
    refine sound.naming.congr (by rw [record]) (by simp [record,size]) fun p => ?_
    obtain ⟨fed,equal⟩ := same p
    rw [equal]
    exact ⟨rfl,rfl,rfl⟩
  case outer => simp

theorem of_output (sound : Sound s []) {i : Nat} {op : Operation}
    (holds : s.operationAt i = some op) (other : ¬ s.Made i) : Sound (s.addOutput i op) [] := by
  have working : (s.stage i).operation ≠ none := by
    intro none
    simp [operationAt,none] at holds
  have inside := inside_of_holds working
  have stages (j : Nat) := stage_addOutput s i op j inside
  have size : (s.addOutput i op).pipes.size = s.pipes.size + 1 := Array.size_push ..
  have bare : s.pipe s.pipes.size = .anonymous "" := by simp [pipe]
  have old (p : Nat) (apart : p ≠ s.pipes.size) : (s.addOutput i op).pipe p = s.pipe p := by
    rw [pipe_addOutput,if_neg apart]
  have same (p : Nat) : ((s.addOutput i op).pipe p).shared = (s.pipe p).shared ∧
      ((s.addOutput i op).pipe p).taken = (s.pipe p).taken ∧
      ((s.addOutput i op).pipe p).readers = (s.pipe p).readers ∧
      ((s.addOutput i op).pipe p).splitter = (s.pipe p).splitter := by
    by_cases last : p = s.pipes.size
    · rw [pipe_addOutput,if_pos last,last,bare]
      exact ⟨rfl,rfl,rfl,rfl⟩
    · rw [old p last]
      exact ⟨rfl,rfl,rfl,rfl⟩
  obtain ⟨chains,layout⟩ := sound.layout
  constructor
  case layout =>
    refine ⟨chains,layout.congr (fun j => ?_) Array.size_modify rfl⟩
    rw [stages]
    split <;> exact ⟨rfl,rfl⟩
  case feeding =>
    refine sound.feeding.of_pushOutput working stages (fun p apart => ?_) ?_
    · rw [old p apart]
      exact ⟨rfl,rfl⟩
    · rw [pipe_addOutput,if_pos rfl]
      exact ⟨rfl,rfl⟩
  case reading =>
    refine sound.reading.congr rfl (fun j => ?_) (fun j _ => ?_) (by omega) fun p own => ?_
    · rw [stages]
      split <;> rfl
    · rw [stages]
      split <;> rfl
    · obtain ⟨shared,taken,noted,_⟩ := same p
      exact ⟨shared ▸ own,taken,noted⟩
  case splitting =>
    refine sound.splitting.congr (fun p => (same p).2.2.2) (fun p behind => ?_) (fun j made => ?_)
      (fun _ _ _ _ => rfl) fun _ _ _ _ => rfl
    · have apart : p ≠ s.pipes.size := by
        rintro rfl
        simp [bare,Pipe.anonymous] at behind
      rw [old p apart]
      exact ⟨rfl,fun _ => rfl⟩
    · have apart : j ≠ i := fun equal => other (equal ▸ made)
      rw [stages,if_neg apart]
  case holding =>
    refine sound.holding.congr (fun j => ?_) rfl
    rw [stages]
    split <;> rfl
  case naming =>
    refine sound.naming.push rfl size (fun _ => ?_) ?_ fun p apart => ?_
    · rw [pipe_addOutput,if_pos rfl]
      exact s.freshName_generated
    · rw [pipe_addOutput,if_pos rfl]
      rfl
    · rw [old p apart]
      exact ⟨rfl,rfl,rfl⟩
  case outer => simp

theorem made_of_head (sound : Sound s []) {b : Nat} (inside : b < s.stages.size)
    (made : s.Made (s.head b)) : s.Made b := by
  obtain ⟨chains,layout⟩ := sound.layout
  obtain ⟨chain,member,present⟩ := layout.chain_of inside
  have head := layout.head_eq member present
  cases chain with
  | nil => simp at present
  | cons first rest =>
    obtain rfl : s.head b = first := by simpa using head
    obtain ⟨p,behind⟩ := made
    obtain ⟨_,_,duplicates⟩ := sound.splitting p _ behind
    have next := (layout.linked _ member).2.1
    rw [duplicates.alone.2] at next
    have alone : rest = [] := by
      cases rest with
      | nil => rfl
      | cons j rest => simp at next
    subst alone
    rw [List.mem_singleton.mp present]
    exact ⟨p,behind⟩

theorem of_splice (sound : Sound s []) {a b : Nat} (insideA : a < s.stages.size)
    (insideB : b < s.stages.size) (tail : (s.stage a).next = none)
    (apart : a ∉ s.sequence (s.head b)) (otherA : ¬ s.Made a) (otherB : ¬ s.Made b) :
    Sound (s.splice a (s.head b)) [] := by
  obtain ⟨chains,layout⟩ := sound.layout
  have joined := layout.of_link insideA insideB tail apart
  obtain ⟨chain,memberB,present⟩ := layout.chain_of insideB
  obtain ⟨back,rfl⟩ := layout.starts_at_head memberB present
  rw [layout.sequence_eq memberB] at apart
  have ne : s.head b ≠ a := fun same => apart (by simp [same])
  have insideHead : s.head b < s.stages.size :=
    layout.mem_flatten.mp (List.mem_flatten.mpr ⟨_,memberB,by simp⟩)
  have stages (j : Nat) := stage_splice s a (s.head b) j insideA ne insideHead
  have content (j : Nat) : ((s.splice a (s.head b)).stage j).outputs = (s.stage j).outputs ∧
      ((s.splice a (s.head b)).stage j).inputs = (s.stage j).inputs ∧
      ((s.splice a (s.head b)).stage j).operation = (s.stage j).operation := by
    rw [stages]
    split
    · exact ⟨rfl,rfl,rfl⟩
    · split <;> exact ⟨rfl,rfl,rfl⟩
  constructor
  case layout => exact joined
  case feeding =>
    refine sound.feeding.congr (fun j => (content j).1) (fun j holds => ?_) fun _ => ⟨rfl,rfl⟩
    rw [(content j).2.2]
    exact holds
  case reading =>
    exact sound.reading.congr rfl (fun j => (content j).2.1) (fun j _ => by rw [(content j).2.2])
      (Nat.le_refl _) fun _ own => ⟨own,rfl,rfl⟩
  case splitting =>
    refine sound.splitting.congr (fun _ => rfl) (fun _ _ => ⟨rfl,fun _ => rfl⟩) (fun j made => ?_)
      (fun _ _ _ _ => rfl) fun _ _ _ _ => rfl
    have notA : j ≠ a := fun same => otherA (same ▸ made)
    have notHead : j ≠ s.head b := fun same => otherB (sound.made_of_head insideB (same ▸ made))
    rw [stages,if_neg notA,if_neg notHead]
  case holding => exact sound.holding.congr (fun j => (content j).2.2) rfl
  case naming => exact sound.naming.congr rfl rfl fun _ => ⟨rfl,rfl,rfl⟩
  case outer => simp

theorem of_arguments (sound : Sound s []) {o : Nat} (args : List Argument)
    (other : ∀ i, s.Made i → (s.stage i).operation ≠ some o) : Sound (s.putArguments o args) [] := by
  obtain ⟨chains,layout⟩ := sound.layout
  constructor
  case layout => exact ⟨chains,layout.congr (fun _ => ⟨rfl,rfl⟩) rfl rfl⟩
  case feeding => exact sound.feeding.congr (fun _ => rfl) (fun _ holds => holds) fun _ => ⟨rfl,rfl⟩
  case reading =>
    exact sound.reading.congr rfl (fun _ => rfl) (fun _ _ => Iff.rfl) (Nat.le_refl _)
      fun _ own => ⟨own,rfl,rfl⟩
  case splitting =>
    refine sound.splitting.congr (fun _ => rfl) (fun _ _ => ⟨rfl,fun _ => rfl⟩) (fun _ _ => rfl)
      (fun _ _ _ _ => rfl) fun i k made holds => ?_
    have apart : k ≠ o := fun same => other i made (same ▸ holds)
    rw [operation_putArguments,if_neg (fun both => apart both.1)]
  case holding => exact sound.holding.congr (fun _ => rfl) Array.size_modify
  case naming => exact sound.naming.congr rfl rfl fun _ => ⟨rfl,rfl,rfl⟩
  case outer => simp

theorem of_hold (sound : Sound s []) {i : Nat} (op : Operation) (inside : i < s.stages.size)
    (vacant : (s.stage i).operation = none) : Sound (s.hold i op) (s.stage i).inputs := by
  have stages (j : Nat) := stage_hold s i op j
  have other : ¬ s.Made i := fun made => sound.splitting.made_holds made vacant
  have operation (j : Nat) : ((s.hold i op).stage j).operation =
      if j = i then some s.operations.size else (s.stage j).operation := by
    rw [stages]
    by_cases same : j = i
    · simp [same,inside]
    · simp [same]
  obtain ⟨chains,layout⟩ := sound.layout
  constructor
  case layout =>
    refine ⟨chains,layout.congr (fun j => ?_) Array.size_modify rfl⟩
    rw [stages]
    split <;> exact ⟨rfl,rfl⟩
  case feeding =>
    refine sound.feeding.congr (fun j => ?_) (fun j holds => ?_) fun _ => ⟨rfl,rfl⟩
    · rw [stages]
      split <;> rfl
    · rw [operation]
      split
      · simp
      · exact holds
  case reading => exact sound.reading.of_hold op inside vacant
  case splitting =>
    refine sound.splitting.congr (fun _ => rfl) (fun _ _ => ⟨rfl,fun _ => rfl⟩) (fun j made => ?_)
      (fun _ _ _ _ => rfl) fun j o made holds => ?_
    · have apart : j ≠ i := fun same => other (same ▸ made)
      rw [stages,if_neg (fun both => apart both.1)]
    · rw [operation_hold,if_neg (Nat.ne_of_lt (sound.holding.inside j o holds))]
  case holding => exact sound.holding.push operation (Array.size_push ..)
  case naming => exact sound.naming.congr rfl rfl fun _ => ⟨rfl,rfl,rfl⟩
  case outer =>
    intro r member j owner made
    have mine := ((sound.reading.pads i r).mp member).2
    have same : i = j := Owner.stage.inj (mine.symm.trans owner)
    exact other (same ▸ made)

theorem kept_of_note {t : Session} {pending : List Nat} (sound : Sound s []) (layout : ∃ chains, Layout t chains)
    (reading : Reading t pending) (holding : Holding t)
    (stages : ∀ i, i < s.stages.size → t.stage i = s.stage i)
    (bare : ∀ i, s.stages.size ≤ i → (t.stage i).outputs = #[])
    (readers : ∀ r, r < s.readers.size → t.reader r = s.reader r)
    (operations : t.operations = s.operations) (streams : t.streams = s.streams)
    (size : t.pipes.size = s.pipes.size)
    (pipes : ∀ p, ∃ more, t.pipe p = note more (s.pipe p))
    (outer : ∀ r ∈ pending, ∀ i, (t.reader r).owner = .stage i → ¬ s.Made i) :
    Sound t pending := by
  have splitters (p : Nat) : (t.pipe p).splitter = (s.pipe p).splitter := by
    obtain ⟨more,equal⟩ := pipes p
    simp [equal]
  have kept (p : Nat) : (t.pipe p).fed = (s.pipe p).fed ∧
      (t.pipe p).shared = (s.pipe p).shared ∧ (t.pipe p).media = (s.pipe p).media ∧
      (t.pipe p).name = (s.pipe p).name ∧ (t.pipe p).fixed = (s.pipe p).fixed := by
    obtain ⟨more,equal⟩ := pipes p
    simp [equal]
  constructor
  case layout => exact layout
  case feeding =>
    refine sound.feeding.congr (fun i => ?_) (fun i holds => ?_) fun p => ⟨(kept p).1,(kept p).2.1⟩
    · by_cases inside : i < s.stages.size
      · rw [stages i inside]
      · have outside : s.stage i = .empty := by simp [stage,Nat.le_of_not_lt inside]
        rw [outside,bare i (by omega)]
        rfl
    · rw [stages i (inside_of_holds holds)]
      exact holds
  case reading => exact reading
  case splitting =>
    refine sound.splitting.congr splitters (fun p _ => ⟨(kept p).2.1,fun _ => (kept p).2.2.1⟩)
      (fun i made => stages i (sound.splitting.made_inside made)) (fun i r _ member => ?_)
      fun _ o _ _ => ?_
    · exact readers r ((sound.reading.pads i r).mp member).1
    · rw [operation,operation,operations]
  case holding => exact holding
  case naming =>
    exact sound.naming.congr streams size fun p => ⟨(kept p).2.2.2.1,(kept p).2.2.2.2,(kept p).2.1⟩
  case outer =>
    intro r member i owner
    rw [made_congr splitters]
    exact outer r member i owner

theorem of_place (sound : Sound s []) {list : List Nat} (inside : ∀ p ∈ list, p < s.pipes.size) :
    Sound (s.addChain list) [] := by
  have stages (i : Nat) := stage_addChain s list i
  obtain ⟨chains,layout⟩ := sound.layout
  refine sound.kept_of_note ⟨_,layout.of_addChain list⟩ (sound.reading.of_addChain inside) ?_
    (fun i old => ?_) (fun i new => ?_) (reader_addChain_old s list) ?_ ?_
    (pipes_size_addChain s list) (fun p => ?_) (by simp)
  · refine sound.holding.congr (fun i => ?_) (by rw [addChain_eq])
    rw [stages]
    split
    next last => simp [last,stage,Stage.empty]
    next => rfl
  · rw [stages,if_neg (Nat.ne_of_lt old)]
  · rw [stages]
    split
    · rfl
    · simp [stage,new,Stage.empty]
  · rw [addChain_eq]
  · rw [addChain_eq]
  · exact ⟨_,pipe_addChain s inside p⟩

theorem of_leave (sound : Sound s []) {p : Nat} (inside : p < s.pipes.size) :
    Sound (s.addReader p .exported) [s.readers.size] := by
  have record := addReader_eq p .exported s
  have stages (i : Nat) : (s.addReader p .exported).stage i = s.stage i := by
    rw [record]
    rfl
  obtain ⟨chains,layout⟩ := sound.layout
  refine sound.kept_of_note ?_ (sound.reading.of_addExport inside) ?_ (fun i _ => stages i)
    (fun i new => ?_) (fun r old => ?_) ?_ ?_ ?_ (fun q => ?_) ?_
  · exact ⟨chains,layout.congr (fun i => by rw [stages]; exact ⟨rfl,rfl⟩) (by rw [record]) (by rw [record])⟩
  · exact sound.holding.congr (fun i => by rw [stages]) (by rw [record])
  · rw [stages]
    simp [stage,new,Stage.empty]
  · rw [reader_addReader,if_neg (Nat.ne_of_lt old)]
  · rw [record]
  · rw [record]
  · simp [record]
  · rw [pipe_addReader]
    split
    · exact ⟨_,rfl⟩
    · exact ⟨[],(note_nil _).symm⟩
  · intro r member i owner
    rw [List.mem_singleton.mp member,reader_addReader,if_pos rfl] at owner
    cases owner

section Turns
variable {r : Nat} {rest : List Nat}

theorem not_made_reader (sound : Sound s (r :: rest)) {i : Nat} (made : s.Made i) :
    r ∉ (s.stage i).inputs := fun member =>
  sound.outer r (by simp) i (sound.splitting.owner_of_made made member) made

theorem of_take (sound : Sound s (r :: rest)) (free : (s.pipe (s.reader r).pipe).shared = true ∨
    (s.pipe (s.reader r).pipe).taken = false) : Sound (s.takeDirect r) rest := by
  have bound : r < s.readers.size := sound.reading.waiting r (by simp)
  have same (p : Nat) : ∃ taken, (s.takeDirect r).pipe p = { s.pipe p with taken := taken } := by
    rw [pipe_takeDirect s r p (sound.reading.inside r bound)]
    split
    · split
      · exact ⟨_,rfl⟩
      · exact ⟨_,rfl⟩
    · exact ⟨_,rfl⟩
  have splitters (p : Nat) : ((s.takeDirect r).pipe p).splitter = (s.pipe p).splitter := by
    obtain ⟨_,equal⟩ := same p
    rw [equal]
  have readers (x : Nat) := reader_takeDirect s r x bound
  obtain ⟨chains,layout⟩ := sound.layout
  constructor
  case layout => exact ⟨chains,layout.congr (fun _ => ⟨rfl,rfl⟩) rfl rfl⟩
  case feeding =>
    refine sound.feeding.congr (fun _ => rfl) (fun _ holds => holds) fun p => ?_
    obtain ⟨_,equal⟩ := same p
    rw [equal]
    exact ⟨rfl,rfl⟩
  case reading => exact sound.reading.of_takeDirect free
  case splitting =>
    refine sound.splitting.congr splitters (fun p _ => ?_) (fun _ _ => rfl)
      (fun i x made member => ?_) fun _ _ _ _ => rfl
    · obtain ⟨_,equal⟩ := same p
      rw [equal]
      exact ⟨rfl,fun _ => rfl⟩
    · have other : x ≠ r := fun equal => sound.not_made_reader made (equal ▸ member)
      rw [readers,if_neg other]
  case holding => exact sound.holding.congr (fun _ => rfl) rfl
  case naming =>
    refine sound.naming.congr rfl Array.size_modify fun p => ?_
    obtain ⟨_,equal⟩ := same p
    rw [equal]
    exact ⟨rfl,rfl,rfl⟩
  case outer =>
    intro x member i owner
    rw [made_congr splitters]
    refine sound.outer x (List.mem_cons_of_mem _ member) i ?_
    rw [readers] at owner
    split at owner <;> exact owner

theorem taker_of_behind {pending : List Nat} (sound : Sound s pending) {p i : Nat}
    (behind : (s.pipe p).splitter = some i) :
    ∃ x, s.Takes pending x p ∧ (s.reader x).owner = .stage i := by
  obtain ⟨_,x,duplicates⟩ := sound.splitting p i behind
  have reader := duplicates.reader
  refine ⟨x,⟨by rw [reader],fun member => ?_,by rw [reader]⟩,by rw [reader]⟩
  exact sound.outer x member i (by rw [reader]) ⟨p,behind⟩

theorem undivided_of_free {pending : List Nat} (sound : Sound s pending) {p : Nat}
    (free : (s.pipe p).shared = true ∨ (s.pipe p).taken = false) : (s.pipe p).splitter = none := by
  cases behind : (s.pipe p).splitter with
  | none => rfl
  | some i =>
    obtain ⟨_,_,duplicates⟩ := sound.splitting p i behind
    obtain ⟨x,takes,_⟩ := sound.taker_of_behind behind
    have taken := (sound.reading.taken p duplicates.own).mpr ⟨x,takes⟩
    simp [duplicates.own,taken] at free

theorem taker_outer (sound : Sound s (r :: rest)) {p d : Nat} (first : (s.pipe p).splitter = none)
    (takes : s.Takes (r :: rest) d p) {i : Nat} (owner : (s.reader d).owner = .stage i) :
    ¬ s.Made i := by
  rintro ⟨q,behind⟩
  obtain ⟨_,x,duplicates⟩ := sound.splitting q i behind
  have member := (sound.reading.pads i d).mpr ⟨inside_of_resolved takes.1,owner⟩
  rw [duplicates.reads,List.mem_singleton] at member
  have points : q = p := by simpa [member,duplicates.reader] using takes.2.2
  rw [points,first] at behind
  cases behind

theorem of_attach (sound : Sound s (r :: rest)) {d : Nat} {name subject : String}
    (own : (s.pipe (s.reader r).pipe).shared = false)
    (first : (s.pipe (s.reader r).pipe).splitter = none)
    (takes : s.Takes (r :: rest) d (s.reader r).pipe)
    (kind : Helper.split.filter (s.pipe (s.reader r).pipe).media subject = .ok name) :
    Sound (s.attach (s.reader r).pipe name) (d :: r :: rest) := by
  have inside := sound.reading.pipe_inside takes
  have stages (j : Nat) := stage_attach s (s.reader r).pipe name j
  have pipes (q : Nat) := pipe_attach s (s.reader r).pipe name q inside
  have kept (q : Nat) : ((s.attach (s.reader r).pipe name).pipe q).fed = (s.pipe q).fed ∧
      ((s.attach (s.reader r).pipe name).pipe q).shared = (s.pipe q).shared ∧
      ((s.attach (s.reader r).pipe name).pipe q).name = (s.pipe q).name ∧
      ((s.attach (s.reader r).pipe name).pipe q).fixed = (s.pipe q).fixed := by
    rw [pipes]
    split <;> simp
  have bare : s.stage s.stages.size = .empty := by simp [stage]
  obtain ⟨chains,layout⟩ := sound.layout
  constructor
  case layout => exact ⟨_,layout.of_attach _ name⟩
  case feeding =>
    refine sound.feeding.congr (fun j => ?_) (fun j holds => ?_) fun q => ⟨(kept q).1,(kept q).2.1⟩
    · rw [stages]
      split
      next last => rw [last,bare]; rfl
      next => rfl
    · rw [stages]
      split
      · simp
      · exact holds
  case reading => exact sound.reading.of_attach name own takes
  case splitting => exact sound.splitting.of_attach sound.holding sound.reading inside own kind
  case holding =>
    refine sound.holding.push (i := s.stages.size) (fun j => ?_) (Array.size_push ..)
    rw [stages]
    split <;> rfl
  case naming =>
    exact sound.naming.congr rfl Array.size_modify fun q =>
      ⟨(kept q).2.2.1,(kept q).2.2.2,(kept q).2.1⟩
  case outer =>
    intro x member i owner after
    have old : x < s.readers.size := by
      rcases List.mem_cons.mp member with rfl | before
      · exact inside_of_resolved takes.1
      · exact sound.reading.waiting x before
    rw [reader_attach,if_neg (Nat.ne_of_lt old)] at owner
    rcases made_attach inside after with rfl | before
    · exact sound.reading.owner_ne old owner
    · rcases List.mem_cons.mp member with rfl | listed
      · exact sound.taker_outer first takes owner before
      · exact sound.outer x listed i owner before

theorem of_move (sound : Sound s (r :: rest)) {i o : Nat}
    (behind : (s.pipe (s.reader r).pipe).splitter = some i)
    (holds : (s.stage i).operation = some o) : Sound (s.moveTo i o r) rest := by
  have bound : r < s.readers.size := sound.reading.waiting r (by simp)
  have inside := sound.reading.inside r bound
  have working : (s.stage i).operation ≠ none := by simp [holds]
  obtain ⟨_,_,duplicates⟩ := sound.splitting _ i behind
  have own := duplicates.own
  have pipes (q : Nat) := pipe_moveTo s i o r q inside
  have stages (j : Nat) := stage_moveTo s i o r j (inside_of_holds working)
  have size : (s.moveTo i o r).pipes.size = s.pipes.size + 1 := by simp [moveTo]
  have bare : s.pipe s.pipes.size = .anonymous "" := by simp [pipe]
  have splitters (q : Nat) := splitter_moveTo s i o r q inside
  have flags (q : Nat) (other : q ≠ s.pipes.size) :
      ((s.moveTo i o r).pipe q).fed = (s.pipe q).fed ∧
        ((s.moveTo i o r).pipe q).shared = (s.pipe q).shared := by
    rw [pipes,if_neg other]
    split <;> exact ⟨rfl,rfl⟩
  obtain ⟨chains,layout⟩ := sound.layout
  constructor
  case layout =>
    refine ⟨chains,layout.congr (fun j => ?_) Array.size_modify rfl⟩
    rw [stages]
    split <;> exact ⟨rfl,rfl⟩
  case feeding =>
    refine sound.feeding.of_pushOutput working stages flags ?_
    rw [pipes,if_pos rfl]
    exact ⟨rfl,rfl⟩
  case reading => exact sound.reading.of_moveTo (inside_of_holds working) own
  case splitting =>
    exact sound.splitting.of_moveTo sound.holding behind holds bound inside
      fun k owner => sound.outer r (by simp) k owner
  case holding =>
    refine sound.holding.congr (fun j => ?_) Array.size_modify
    rw [stages]
    split <;> rfl
  case naming =>
    -- The pipe may give its name away, and the new pipe may take it.
    let source := (s.reader r).pipe
    have free (p : Pipe) (called : p.fixed = false → Generated p.name) :
        ((deserted r (s.reader r).owner s.freshName p).fixed = false →
          Generated (deserted r (s.reader r).owner s.freshName p).name) ∧
        (∀ hint, (branchFor r (s.reader r).owner s.freshName hint p).fixed = false →
          Generated (branchFor r (s.reader r).owner s.freshName hint p).name) := by
      by_cases exported : (s.reader r).owner = .exported
      · simpa [deserted,branchFor,exported,s.freshName_generated] using called
      · simp only [deserted,branchFor,exported,ne_eq,not_false_eq_true,decide_true,Bool.and_true,
          if_false,decide_false,Bool.and_false,forall_const]
        exact ⟨called,s.freshName_generated⟩
    have called := sound.naming.generated source inside
    constructor
    · intro q bounded isFree
      by_cases last : q = s.pipes.size
      · rw [pipes,if_pos last] at isFree ⊢
        exact (free _ called).2 _ isFree
      · rw [pipes,if_neg last] at isFree ⊢
        split at isFree
        next same =>
          rw [if_pos same]
          subst same
          exact (free _ called).1 isFree
        next other =>
          rw [if_neg other]
          exact sound.naming.generated q (by omega) isFree
    · intro q isShared
      have notLast : q ≠ s.pipes.size := by
        rintro rfl
        rw [pipes,if_pos rfl] at isShared
        cases isShared
      have before : (s.pipe q).shared = true := (flags q notLast).2 ▸ isShared
      have other : q ≠ (s.reader r).pipe := by
        rintro rfl
        simp [own] at before
      rw [pipes,if_neg notLast,if_neg other]
      exact sound.naming.stream q before
    · intro spec q found
      have known := sound.naming.known spec q found
      have notLast : q ≠ s.pipes.size := Nat.ne_of_lt (inside_of_shared known.1)
      have other : q ≠ (s.reader r).pipe := by
        rintro rfl
        simp [own] at known
      rw [pipes,if_neg notLast,if_neg other]
      exact known
  case outer =>
    intro x member k owner
    rw [made_congr splitters]
    refine sound.outer x (List.mem_cons_of_mem _ member) k ?_
    rw [reader_moveTo s i o r x bound] at owner
    split at owner <;> exact owner

end Turns

end Sound

theorem Turn.sound {l m : Ledger} (turn : Turn l m) (sound : Sound l.session l.pending) :
    Sound m.session m.pending := by
  cases turn with
  | take _ _ _ _ _ free => exact sound.of_take free
  | attach _ _ _ _ _ _ _ _ own first takes kind => exact sound.of_attach own first takes kind
  | move _ _ _ _ _ _ _ behind holds => exact sound.of_move behind holds

/-- Soundness is kept by whatever is done next. -/
theorem Move.sound {l m : Ledger} (move : Move l m) (sound : Sound l.session l.pending) :
    Sound m.session m.pending := by
  cases move with
  | anonymous => exact sound.of_anonymous
  | named => exact sound.of_named _
  | stream _ _ _ _ unknown => exact sound.of_stream unknown
  | paint _ _ _ _ _ hint kept => exact sound.of_paint hint kept
  | retitle _ _ _ _ name inside free => exact sound.of_retitle name inside free
  | place _ _ _ _ inside _ => exact sound.of_place inside
  | append _ _ _ _ op holds tail _ other => exact sound.of_append op holds tail other
  | connect _ _ _ _ _ holds bare distinct inside unfed other =>
    exact sound.of_connect holds bare distinct inside unfed other
  | output _ _ _ _ _ holds other => exact sound.of_output holds other
  | splice _ _ _ _ _ insideA insideB tail apart otherA otherB =>
    exact sound.of_splice insideA insideB tail apart otherA otherB
  | arguments _ _ _ _ args other => exact sound.of_arguments args other
  | hold _ _ _ _ op inside vacant => exact sound.of_hold op inside vacant
  | turn _ _ turn => exact turn.sound sound

structure Untouched (s t : Session) : Prop where
  splitters : ∀ p, (t.pipe p).splitter = (s.pipe p).splitter
  stages : ∀ i, s.Made i → t.stage i = s.stage i

theorem Move.untouched {l m : Ledger} (move : Move l m) (sound : Sound l.session l.pending)
    (quiet : l.pending = []) : Untouched l.session m.session := by
  have fresh (s : Session) : (s.pipe s.pipes.size).splitter = none := by
    simp [pipe,Pipe.anonymous]
  cases move with
  | anonymous s =>
    refine ⟨fun p => ?_,fun _ _ => rfl⟩
    rw [pipe_addAnonymous]
    split
    next last => rw [last,fresh]; rfl
    next => rfl
  | named s _ _ name =>
    refine ⟨fun p => ?_,fun _ _ => rfl⟩
    rw [pipe_addPipe]
    split
    next last => rw [last,fresh]; rfl
    next => rfl
  | stream s _ _ spec =>
    refine ⟨fun p => (congrArg Pipe.splitter (pipe_addPipe s (.ofStream spec) p)).trans ?_,
      fun _ _ => rfl⟩
    split
    next last => rw [last,fresh]; rfl
    next => rfl
  | paint s _ _ p media hint =>
    refine ⟨fun q => (congrArg Pipe.splitter (pipe_modifyPipe s p _ q)).trans ?_,fun _ _ => rfl⟩
    split <;> rfl
  | retitle s _ _ p name =>
    refine ⟨fun q => (congrArg Pipe.splitter (pipe_modifyPipe s p _ q)).trans ?_,fun _ _ => rfl⟩
    split <;> rfl
  | place s _ _ list inside =>
    refine ⟨fun p => by rw [pipe_addChain s inside,note_splitter],fun i made => ?_⟩
    rw [stage_addChain,if_neg (Nat.ne_of_lt (sound.splitting.made_inside made))]
  | append s _ _ i op holds _ _ other =>
    refine ⟨fun _ => rfl,fun j made => ?_⟩
    have old := sound.splitting.made_inside made
    have apart : j ≠ i := fun same => other (same ▸ made)
    rw [stage_append s i op j (inside_of_holds holds),if_neg (Nat.ne_of_lt old),if_neg apart]
  | connect s _ _ i pipes holds _ _ _ _ other =>
    refine ⟨fun p => ?_,fun j made => ?_⟩
    · rw [pipe_putOutputs]
      split <;> rfl
    · have apart : j ≠ i := fun same => other (same ▸ made)
      rw [stage_putOutputs s i pipes j (inside_of_holds holds),if_neg apart]
  | output s _ _ i op holds other =>
    have working : (s.stage i).operation ≠ none := by
      intro none
      simp [operationAt,none] at holds
    refine ⟨fun p => ?_,fun j made => ?_⟩
    · rw [pipe_addOutput]
      split
      next last => rw [last,fresh]; rfl
      next => rfl
    · have apart : j ≠ i := fun same => other (same ▸ made)
      rw [stage_addOutput s i op j (inside_of_holds working),if_neg apart]
  | splice s _ _ a b insideA insideB tail apart otherA otherB =>
    refine ⟨fun _ => rfl,fun j made => ?_⟩
    have notA : j ≠ a := fun same => otherA (same ▸ made)
    have notHead : j ≠ s.head b := fun same => otherB (sound.made_of_head insideB (same ▸ made))
    refine (getD_modify ..).trans ?_
    rw [getD_modify,if_neg (fun both => notHead both.1),if_neg (fun both => notA both.1)]
    rfl
  | arguments => exact ⟨fun _ => rfl,fun _ _ => rfl⟩
  | hold s _ _ i op _ vacant =>
    refine ⟨fun _ => rfl,fun j made => ?_⟩
    have apart : j ≠ i := fun same => sound.splitting.made_holds (same ▸ made) vacant
    rw [stage_hold,if_neg (fun both => apart both.1)]
  | turn _ _ turn => cases turn <;> cases quiet

abbrev Turns := Relation.ReflTransGen Turn

abbrev Moves := Relation.ReflTransGen Move

abbrev Closings := Relation.ReflTransGen Closing

theorem Turns.moves {l m : Ledger} (turns : Turns l m) : Moves l m :=
  Relation.ReflTransGen.mono (fun l m turn => Move.turn l m turn) _ _ turns

theorem Moves.closings {l m : Ledger} (moves : Moves l m) : Closings l m :=
  Relation.ReflTransGen.mono (fun l m move => Closing.move l m move) _ _ moves

end MediaGraph.Session
