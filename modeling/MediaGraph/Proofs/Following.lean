import MediaGraph.Proofs.Soundness

/-! Where readers end up.
A reader stays on the pipe that it was put on, or reads an output of the split
behind it; the outputs belong to the readers of the pipe in the order in which
they got theirs. -/
namespace MediaGraph.Session

theorem mem_consumers {put : List (Nat × Nat)} {took : List Nat} {p r : Nat} :
    r ∈ consumers put took p ↔ r ∈ took ∧ (r,p) ∈ put := by
  simp [consumers]

theorem consumers_append (put : List (Nat × Nat)) (took : List Nat) (p r : Nat) :
    consumers put (took ++ [r]) p = consumers put took p ++ if (r,p) ∈ put then [r] else [] := by
  by_cases placed : (r,p) ∈ put <;> simp [consumers,placed]

theorem mem_settled {s : Session} {took : List Nat} {r x : Nat} :
    x ∈ s.settled r took ↔ x ∈ took ∨ (x = r ∧ (s.reader r).resolved = false) := by
  cases resolved : (s.reader r).resolved <;> simp [settled,resolved]

/-- The history of the readers agrees with the session. -/
structure Following (s : Session) (put : List (Nat × Nat)) (took pending : List Nat) : Prop where
  placed : ∀ r p, (r,p) ∈ put → r < s.readers.size ∧ p < s.pipes.size ∧ ¬ s.Branch p
  single : ∀ r p q, (r,p) ∈ put → (r,q) ∈ put → p = q
  origin : ∀ r, r < s.readers.size →
    (∃ p, (r,p) ∈ put) ∨ ∃ i, (s.reader r).owner = .stage i ∧ s.Made i
  outer : ∀ r p, (r,p) ∈ put → ∀ i, (s.reader r).owner = .stage i → ¬ s.Made i
  once : took.Nodup
  turns : ∀ r, r ∈ took ↔ (s.reader r).resolved = true ∧ ∃ p, (r,p) ∈ put
  due : ∀ r, r ∈ pending → (r,(s.reader r).pipe) ∈ put
  idle : ∀ r, r ∈ pending.tail → (s.reader r).resolved = false
  fresh : ∀ r, r ∈ pending → (s.reader r).resolved = true →
    ∃ i, (s.pipe (s.reader r).pipe).splitter = some i ∧ (s.stage i).outputs = #[]
  waiting : ∀ r p, (r,p) ∈ put → (s.reader r).resolved = false → (s.reader r).pipe = p
  whole : ∀ p, (s.pipe p).splitter = none → ∀ r ∈ consumers put took p, (s.reader r).pipe = p
  split : ∀ p i, (s.pipe p).splitter = some i →
    ((consumers put took p).filter (· ∉ pending)).map (fun r => (s.reader r).pipe) =
      (s.stage i).outputs.toList
  several : ∀ p i, (s.pipe p).splitter = some i →
    2 ≤ (s.stage i).outputs.size + pending.countP fun r => (s.reader r).pipe = p

theorem branch_congr {s t : Session} (splitters : ∀ p, (t.pipe p).splitter = (s.pipe p).splitter)
    (outputs : ∀ i, s.Made i → (t.stage i).outputs = (s.stage i).outputs) (p : Nat) :
    t.Branch p ↔ s.Branch p := by
  constructor
  · rintro ⟨i,made,member⟩
    have before := (made_congr splitters i).mp made
    exact ⟨i,before,outputs i before ▸ member⟩
  · rintro ⟨i,made,member⟩
    exact ⟨i,(made_congr splitters i).mpr made,(outputs i made).symm ▸ member⟩

namespace Following
variable {s t : Session} {put : List (Nat × Nat)} {took pending : List Nat}

theorem of_new (serial : Nat) (catalog : Catalog) : Following (new serial catalog) [] [] [] := by
  have noPipe (p : Nat) : (new serial catalog).pipe p = .anonymous "" := rfl
  have size : (new serial catalog).readers.size = 0 := rfl
  constructor <;> simp [noPipe,size,Pipe.anonymous,consumers]

theorem congr (following : Following s put took []) (readers : t.readers = s.readers)
    (size : s.pipes.size ≤ t.pipes.size)
    (splitters : ∀ p, (t.pipe p).splitter = (s.pipe p).splitter)
    (outputs : ∀ i, s.Made i → (t.stage i).outputs = (s.stage i).outputs) :
    Following t put took [] := by
  have reader (r : Nat) : t.reader r = s.reader r := by rw [Session.reader,Session.reader,readers]
  constructor
  case placed =>
    intro r p member
    obtain ⟨bound,inside,outer⟩ := following.placed r p member
    rw [readers,branch_congr splitters outputs]
    exact ⟨bound,Nat.lt_of_lt_of_le inside size,outer⟩
  case single => exact following.single
  case origin =>
    intro r bound
    simp only [reader,made_congr splitters]
    exact following.origin r (readers ▸ bound)
  case outer =>
    intro r p member i
    rw [reader,made_congr splitters]
    exact following.outer r p member i
  case once => exact following.once
  case turns =>
    intro r
    rw [reader]
    exact following.turns r
  case due => simp
  case idle => simp
  case fresh => simp
  case waiting =>
    intro r p member
    rw [reader]
    exact following.waiting r p member
  case whole =>
    intro p whole r member
    rw [reader]
    exact following.whole p (splitters p ▸ whole) r member
  case split =>
    intro p i behind
    rw [splitters] at behind
    simp only [reader,outputs i ⟨p,behind⟩]
    exact following.split p i behind
  case several =>
    intro p i behind
    rw [splitters] at behind
    rw [outputs i ⟨p,behind⟩]
    exact following.several p i behind

theorem put_of_vacant (following : Following s put took []) (sound : Sound s []) {i r : Nat}
    (vacant : (s.stage i).operation = none) (member : r ∈ (s.stage i).inputs) :
    (r,(s.reader r).pipe) ∈ put := by
  obtain ⟨bound,owner⟩ := (sound.reading.pads i r).mp member
  rcases following.origin r bound with ⟨p,placed⟩ | ⟨j,belongs,made⟩
  · rwa [following.waiting r p placed (sound.reading.idle_of_vacant vacant member)]
  · have same : i = j := Owner.stage.inj (owner.symm.trans belongs)
    exact absurd vacant (sound.splitting.made_holds (same ▸ made))

theorem of_hold (following : Following s put took []) (sound : Sound s []) {i : Nat}
    (op : Operation) (vacant : (s.stage i).operation = none) :
    Following (s.hold i op) put took (s.stage i).inputs := by
  have other : ¬ s.Made i := fun made => sound.splitting.made_holds made vacant
  have stages (j : Nat) (made : s.Made j) : (s.hold i op).stage j = s.stage j := by
    have apart : j ≠ i := fun same => other (same ▸ made)
    rw [stage_hold,if_neg (fun both => apart both.1)]
  have outputs (j : Nat) (made : s.Made j) :
      ((s.hold i op).stage j).outputs = (s.stage j).outputs := by rw [stages j made]
  have branches := branch_congr (s := s) (t := s.hold i op) (fun _ => rfl) outputs
  have idle (r : Nat) (member : r ∈ (s.stage i).inputs) :=
    sound.reading.idle_of_vacant vacant member
  have apart (r : Nat) (member : r ∈ took) : r ∉ (s.stage i).inputs := fun listed => by
    simpa [idle r listed] using ((following.turns r).mp member).1
  constructor
  case placed =>
    intro r p member
    obtain ⟨bound,inside,outer⟩ := following.placed r p member
    exact ⟨bound,inside,(branches p).not.mpr outer⟩
  case single => exact following.single
  case origin => exact following.origin
  case outer => exact following.outer
  case once => exact following.once
  case turns => exact following.turns
  case due => exact fun r member => following.put_of_vacant sound vacant member
  case idle => exact fun r member => idle r (List.mem_of_mem_tail member)
  case fresh =>
    intro r member resolved
    have unresolved := idle r member
    change (s.reader r).resolved = true at resolved
    simp [unresolved] at resolved
  case waiting => exact following.waiting
  case whole => exact following.whole
  case split =>
    intro p j behind
    have before := following.split p j behind
    rw [outputs j ⟨p,behind⟩,← before]
    congr 1
    refine List.filter_congr fun r member => ?_
    simpa using apart r (mem_consumers.mp member).1
  case several =>
    intro p j behind
    have before := following.several p j behind
    rw [outputs j ⟨p,behind⟩]
    simp only [List.countP_nil] at before
    omega

structure Arrives (s t : Session) (r p : Nat) : Prop where
  late : s.readers.size ≤ r
  bound : r < t.readers.size
  inside : p < s.pipes.size
  outer : ¬ s.Branch p
  points : (t.reader r).pipe = p
  idle : (t.reader r).resolved = false
  owner : ∀ i, (t.reader r).owner = .stage i → ¬ s.Made i

theorem of_readers (following : Following s put took []) {more : List (Nat × Nat)}
    (stages : ∀ i, s.Made i → (t.stage i).outputs = (s.stage i).outputs)
    (size : t.pipes.size = s.pipes.size)
    (splitters : ∀ p, (t.pipe p).splitter = (s.pipe p).splitter)
    (grown : Grown s t) (new : ∀ r p, (r,p) ∈ more → Arrives s t r p)
    (all : ∀ r, s.readers.size ≤ r → r < t.readers.size → ∃ p, (r,p) ∈ more)
    (due : ∀ r, r ∈ pending → ∃ p, (r,p) ∈ more) :
    Following t (put ++ more) took pending := by
  have branches := branch_congr (s := s) (t := t) splitters stages
  have kept (r p : Nat) (member : (r,p) ∈ put ++ more) :
      ((r,p) ∈ put ∧ r < s.readers.size) ∨ (r,p) ∈ more := by
    rcases List.mem_append.mp member with before | after
    · exact Or.inl ⟨before,(following.placed r p before).1⟩
    · exact Or.inr after
  have tookOld (r : Nat) (member : r ∈ took) : r < s.readers.size :=
    inside_of_resolved ((following.turns r).mp member).1
  have same (p : Nat) : consumers (put ++ more) took p = consumers put took p := by
    refine List.filter_congr fun r member => ?_
    have absent : (r,p) ∉ more := fun listed =>
      absurd (tookOld r member) (Nat.not_lt_of_le (new r p listed).late)
    simp [absent]
  have notPending (r : Nat) (bound : r < s.readers.size) : r ∉ pending := fun member => by
    obtain ⟨p,listed⟩ := due r member
    exact absurd bound (Nat.not_lt_of_le (new r p listed).late)
  constructor
  case placed =>
    intro r p member
    rw [branches,size]
    rcases kept r p member with ⟨before,bound⟩ | after
    · exact ⟨Nat.lt_of_lt_of_le bound grown.readers,(following.placed r p before).2⟩
    · have arrives := new r p after
      exact ⟨arrives.bound,arrives.inside,arrives.outer⟩
  case single =>
    intro r p q first second
    rcases kept r p first with ⟨before,bound⟩ | after <;>
      rcases kept r q second with ⟨before',bound'⟩ | after'
    · exact following.single r p q before before'
    · exact absurd bound (Nat.not_lt_of_le (new r q after').late)
    · exact absurd bound' (Nat.not_lt_of_le (new r p after).late)
    · exact (new r p after).points.symm.trans (new r q after').points
  case origin =>
    intro r bound
    by_cases before : r < s.readers.size
    · rw [grown.old r before]
      rcases following.origin r before with ⟨p,placed⟩ | ⟨i,owner,made⟩
      · exact Or.inl ⟨p,List.mem_append_left _ placed⟩
      · exact Or.inr ⟨i,owner,(made_congr splitters i).mpr made⟩
    · obtain ⟨p,listed⟩ := all r (Nat.le_of_not_lt before) bound
      exact Or.inl ⟨p,List.mem_append_right _ listed⟩
  case outer =>
    intro r p member i owner
    rw [made_congr splitters]
    rcases kept r p member with ⟨before,bound⟩ | after
    · exact following.outer r p before i (grown.old r bound ▸ owner)
    · exact (new r p after).owner i owner
  case once => exact following.once
  case turns =>
    intro r
    rw [following.turns r]
    constructor
    · rintro ⟨resolved,p,placed⟩
      rw [grown.old r (inside_of_resolved resolved)]
      exact ⟨resolved,p,List.mem_append_left _ placed⟩
    · rintro ⟨resolved,p,member⟩
      rcases kept r p member with ⟨before,bound⟩ | after
      · exact ⟨grown.old r bound ▸ resolved,p,before⟩
      · simp [(new r p after).idle] at resolved
  case due =>
    intro r member
    obtain ⟨p,listed⟩ := due r member
    rw [(new r p listed).points]
    exact List.mem_append_right _ listed
  case idle =>
    intro r member
    obtain ⟨p,listed⟩ := due r (List.mem_of_mem_tail member)
    exact (new r p listed).idle
  case fresh =>
    intro r member resolved
    obtain ⟨p,listed⟩ := due r member
    simp [(new r p listed).idle] at resolved
  case waiting =>
    intro r p member resolved
    rcases kept r p member with ⟨before,bound⟩ | after
    · rw [grown.old r bound] at resolved ⊢
      exact following.waiting r p before resolved
    · exact (new r p after).points
  case whole =>
    intro p whole r member
    rw [same] at member
    rw [grown.old r (tookOld r (mem_consumers.mp member).1)]
    exact following.whole p (splitters p ▸ whole) r member
  case split =>
    intro p i behind
    rw [splitters] at behind
    have bounded (r : Nat) (member : r ∈ consumers put took p) : r < s.readers.size :=
      tookOld r (mem_consumers.mp member).1
    have untouched : (consumers put took p).filter (· ∉ pending) =
        (consumers put took p).filter (· ∉ []) :=
      List.filter_congr fun r member => by simpa using notPending r (bounded r member)
    rw [same,stages i ⟨p,behind⟩,← following.split p i behind,untouched]
    refine List.map_congr_left fun r member => ?_
    rw [grown.old r (bounded r (List.mem_of_mem_filter member))]
  case several =>
    intro p i behind
    rw [splitters] at behind
    have before := following.several p i behind
    rw [stages i ⟨p,behind⟩]
    simp only [List.countP_nil] at before
    omega

section Turns
variable {r : Nat} {rest : List Nat}

theorem apart (sound : Sound s (r :: rest)) : r ∉ rest :=
  (List.nodup_cons.mp sound.reading.once).1

theorem source (following : Following s put took (r :: rest)) : (r,(s.reader r).pipe) ∈ put :=
  following.due r (by simp)

theorem later_idle (following : Following s put took (r :: rest)) {x : Nat} (member : x ∈ rest) :
    (s.reader x).resolved = false :=
  following.idle x member

theorem settled_nodup (following : Following s put took (r :: rest)) :
    (s.settled r took).Nodup := by
  unfold settled
  split
  · exact following.once
  next idle =>
    refine List.nodup_append.mpr ⟨following.once,by simp,fun x member y last same => ?_⟩
    rw [List.mem_singleton.mp last] at same
    exact idle ((following.turns r).mp (same ▸ member)).1

theorem mem_settled_iff (following : Following s put took (r :: rest)) {x : Nat} :
    x ∈ s.settled r took ↔ (x = r ∨ (s.reader x).resolved = true) ∧ ∃ p, (x,p) ∈ put := by
  rw [mem_settled,following.turns x]
  constructor
  · rintro (⟨before,placed⟩ | ⟨rfl,_⟩)
    · exact ⟨Or.inr before,placed⟩
    · exact ⟨Or.inl rfl,_,following.source⟩
  · rintro ⟨rfl | before,placed⟩
    · cases now : (s.reader x).resolved with
      | true => exact Or.inl ⟨rfl,placed⟩
      | false => exact Or.inr ⟨rfl,rfl⟩
    · exact Or.inl ⟨before,placed⟩

section Elsewhere
variable {q : Nat} (apart : q ≠ (s.reader r).pipe)
include apart

theorem not_put (following : Following s put took (r :: rest)) : (r,q) ∉ put := fun placed =>
  apart (following.single r q _ placed following.source)

theorem consumers_settled (following : Following s put took (r :: rest)) :
    consumers put (s.settled r took) q = consumers put took q := by
  unfold settled
  split
  · rfl
  · rw [consumers_append,if_neg (following.not_put apart),List.append_nil]

theorem consumer_ne (following : Following s put took (r :: rest)) {x : Nat}
    (member : x ∈ consumers put took q) : x ≠ r := fun same =>
  following.not_put apart (same ▸ (mem_consumers.mp member).2)

theorem filter_consumers (following : Following s put took (r :: rest)) :
    (consumers put (s.settled r took) q).filter (· ∉ rest) =
      (consumers put took q).filter (· ∉ r :: rest) := by
  rw [following.consumers_settled apart]
  exact List.filter_congr fun x member => by simp [following.consumer_ne apart member]

end Elsewhere

/-- The reader whose turn it is comes behind the other consumers of its pipe. If it had
the pipe, there are no others yet. -/
theorem consumers_turn (following : Following s put took (r :: rest)) (sound : Sound s (r :: rest))
    {i : Nat} (behind : (s.pipe (s.reader r).pipe).splitter = some i) :
    (consumers put (s.settled r took) (s.reader r).pipe).filter (· ∉ rest) =
      (consumers put took (s.reader r).pipe).filter (· ∉ r :: rest) ++ [r] := by
  have later : r ∉ rest := apart sound
  cases now : (s.reader r).resolved with
  | false =>
    have notTook : r ∉ took := fun member => by
      simpa [now] using ((following.turns r).mp member).1
    have settled : s.settled r took = took ++ [r] := by simp [Session.settled,now]
    have kept : (consumers put took (s.reader r).pipe).filter (· ∉ rest) =
        (consumers put took (s.reader r).pipe).filter (· ∉ r :: rest) := by
      refine List.filter_congr fun x member => ?_
      have other : x ≠ r := fun same => notTook (same ▸ (mem_consumers.mp member).1)
      simp [other]
    rw [settled,consumers_append,if_pos following.source,List.filter_append,kept]
    simp [later]
  | true =>
    obtain ⟨j,sameStage,bare⟩ := following.fresh r (by simp) now
    obtain rfl : i = j := Option.some.inj (behind.symm.trans sameStage)
    have settled : s.settled r took = took := by simp [Session.settled,now]
    have before := following.split _ i behind
    rw [bare] at before
    have none := List.map_eq_nil_iff.mp before
    rw [settled,none,List.nil_append]
    refine filter_eq_singleton (following.once.filter _) fun x => ?_
    constructor
    · rintro ⟨member,notLater⟩
      have listed := List.filter_eq_nil_iff.mp none x member
      simp only [List.mem_cons,not_or,decide_eq_true_eq,not_and,not_not] at listed notLater
      exact Classical.not_not.mp fun other => notLater (listed other)
    · rintro rfl
      refine ⟨mem_consumers.mpr ⟨(following.turns x).mpr ⟨now,_,following.source⟩,
        following.source⟩,?_⟩
      simpa using later

theorem of_take (following : Following s put took (r :: rest)) (sound : Sound s (r :: rest))
    (free : (s.pipe (s.reader r).pipe).shared = true ∨ (s.pipe (s.reader r).pipe).taken = false) :
    Following (s.takeDirect r) put (s.settled r took) rest := by
  have bound : r < s.readers.size := sound.reading.waiting r (by simp)
  have undivided : (s.pipe (s.reader r).pipe).splitter = none := sound.undivided_of_free free
  have readers (x : Nat) := reader_takeDirect s r x bound
  have points (x : Nat) : ((s.takeDirect r).reader x).pipe = (s.reader x).pipe := by
    rw [readers]
    split <;> rfl
  have owner (x : Nat) : ((s.takeDirect r).reader x).owner = (s.reader x).owner := by
    rw [readers]
    split <;> rfl
  have resolved (x : Nat) : ((s.takeDirect r).reader x).resolved = true ↔
      x = r ∨ (s.reader x).resolved = true := by
    rw [readers]
    by_cases same : x = r <;> simp [same]
  have later (x : Nat) (member : x ∈ rest) : ((s.takeDirect r).reader x).resolved = false := by
    have other : x ≠ r := fun same => apart sound (same ▸ member)
    rw [readers,if_neg other]
    exact following.idle x member
  have splitters (p : Nat) : ((s.takeDirect r).pipe p).splitter = (s.pipe p).splitter := by
    rw [pipe_takeDirect s r p (sound.reading.inside r bound)]
    split
    · split <;> rfl
    · rfl
  have branches := branch_congr (s := s) (t := s.takeDirect r) splitters fun _ _ => rfl
  have size : (s.takeDirect r).readers.size = s.readers.size := Array.size_modify
  have pipesSize : (s.takeDirect r).pipes.size = s.pipes.size := Array.size_modify
  have elsewhere (p i : Nat) (behind : (s.pipe p).splitter = some i) : p ≠ (s.reader r).pipe := by
    rintro rfl
    simp [undivided] at behind
  constructor
  case placed =>
    intro x p member
    obtain ⟨before,inside,outer⟩ := following.placed x p member
    rw [size,pipesSize,branches]
    exact ⟨before,inside,outer⟩
  case single => exact following.single
  case origin =>
    intro x before
    simp only [owner,made_congr splitters]
    exact following.origin x (size ▸ before)
  case outer =>
    intro x p member i
    rw [owner,made_congr splitters]
    exact following.outer x p member i
  case once => exact following.settled_nodup
  case turns =>
    intro x
    rw [following.mem_settled_iff,resolved]
  case due =>
    intro x member
    rw [points]
    exact following.due x (by simp [member])
  case idle =>
    intro x member
    exact later x (List.mem_of_mem_tail member)
  case fresh =>
    intro x member isResolved
    simp [later x member] at isResolved
  case waiting =>
    intro x p member idle
    rw [points]
    refine following.waiting x p member ?_
    cases before : (s.reader x).resolved with
    | false => rfl
    | true => simp [(resolved x).mpr (Or.inr before)] at idle
  case whole =>
    intro p whole x member
    rw [points]
    rw [splitters] at whole
    obtain ⟨turned,placed⟩ := mem_consumers.mp member
    rcases mem_settled.mp turned with before | ⟨rfl,_⟩
    · exact following.whole p whole x (mem_consumers.mpr ⟨before,placed⟩)
    · exact following.single x _ p following.source placed
  case split =>
    intro p i behind
    rw [splitters] at behind
    rw [following.filter_consumers (elsewhere p i behind)]
    simp only [points]
    exact following.split p i behind
  case several =>
    intro p i behind
    rw [splitters] at behind
    have before := following.several p i behind
    have other : (s.reader r).pipe ≠ p := Ne.symm (elsewhere p i behind)
    simp only [List.countP_cons,other,decide_false,Bool.false_eq_true,if_false] at before
    simp only [points]
    exact before

theorem taker_placed (following : Following s put took (r :: rest)) (sound : Sound s (r :: rest))
    {d : Nat} (first : (s.pipe (s.reader r).pipe).splitter = none)
    (takes : s.Takes (r :: rest) d (s.reader r).pipe) : (d,(s.reader r).pipe) ∈ put := by
  rcases following.origin d (inside_of_resolved takes.1) with ⟨q,placed⟩ | ⟨i,owner,made⟩
  · have member : d ∈ consumers put took q :=
      mem_consumers.mpr ⟨(following.turns d).mpr ⟨takes.1,q,placed⟩,placed⟩
    have outer := (following.placed r _ following.source).2.2
    cases behind : (s.pipe q).splitter with
    | none =>
      have points := following.whole q behind d member
      rw [← takes.2.2,points]
      exact placed
    | some j =>
      have listed : (s.reader d).pipe ∈ (s.stage j).outputs.toList := by
        rw [← following.split q j behind]
        exact List.mem_map.mpr ⟨d,List.mem_filter.mpr ⟨member,by simpa using takes.2.1⟩,rfl⟩
      rw [takes.2.2] at listed
      exact absurd ⟨j,⟨q,behind⟩,Array.mem_toList_iff.mp listed⟩ outer
  · exact absurd made (sound.taker_outer first takes owner)

theorem consumers_attach (following : Following s put took (r :: rest))
    (sound : Sound s (r :: rest)) {d p : Nat} (own : (s.pipe p).shared = false)
    (first : (s.pipe p).splitter = none) (takes : s.Takes (r :: rest) d p) :
    (consumers put took p).filter (· ∉ d :: r :: rest) = [] := by
  refine List.filter_eq_nil_iff.mpr fun x member => ?_
  have points := following.whole p first x member
  have resolved := ((following.turns x).mp (mem_consumers.mp member).1).1
  by_cases listed : x ∈ r :: rest
  · simp only [decide_eq_true_eq,not_not]
    exact List.mem_cons_of_mem _ listed
  · have equal := sound.reading.sole p own x d ⟨resolved,listed,points⟩ takes
    simp [equal]

theorem of_attach (following : Following s put took (r :: rest)) (sound : Sound s (r :: rest))
    {d : Nat} (name : String) (idle : ∀ x ∈ r :: rest, (s.reader x).resolved = false)
    (own : (s.pipe (s.reader r).pipe).shared = false)
    (first : (s.pipe (s.reader r).pipe).splitter = none)
    (takes : s.Takes (r :: rest) d (s.reader r).pipe) :
    Following (s.attach (s.reader r).pipe name) put took (d :: r :: rest) := by
  have inside := sound.reading.pipe_inside takes
  have placed := following.taker_placed sound first takes
  have stages (j : Nat) := stage_attach s (s.reader r).pipe name j
  have old := (grown_attach name inside).old
  have new : (s.attach (s.reader r).pipe name).reader s.readers.size =
      ⟨(s.reader r).pipe,.stage s.stages.size,true⟩ := by rw [reader_attach,if_pos rfl]
  have size : (s.attach (s.reader r).pipe name).readers.size = s.readers.size + 1 :=
    Array.size_push ..
  have splitters (q : Nat) := splitter_attach s (s.reader r).pipe name q inside
  have madeOld (i : Nat) (before : s.Made i) : (s.attach (s.reader r).pipe name).Made i := by
    obtain ⟨q,behind⟩ := before
    refine ⟨q,?_⟩
    rw [splitters,if_neg]
    · exact behind
    · rintro rfl
      simp [first] at behind
  have behindOld (q i : Nat) (other : q ≠ (s.reader r).pipe)
      (behind : ((s.attach (s.reader r).pipe name).pipe q).splitter = some i) :
      (s.pipe q).splitter = some i ∧
        (s.attach (s.reader r).pipe name).stage i = s.stage i := by
    rw [splitters,if_neg other] at behind
    have bound := sound.splitting.made_inside ⟨q,behind⟩
    exact ⟨behind,by rw [stages,if_neg (Nat.ne_of_lt bound)]⟩
  have putOld (x q : Nat) (member : (x,q) ∈ put) : x < s.readers.size :=
    (following.placed x q member).1
  have pendingOld (x : Nat) (member : x ∈ r :: rest) : x < s.readers.size :=
    sound.reading.waiting x member
  have boundD := inside_of_resolved takes.1
  constructor
  case placed =>
    intro x q member
    obtain ⟨bound,insideQ,outer⟩ := following.placed x q member
    refine ⟨by omega,by simpa [attach] using insideQ,?_⟩
    exact fun after => outer (branch_attach inside after)
  case single => exact following.single
  case origin =>
    intro x bound
    by_cases before : x < s.readers.size
    · rw [old x before]
      rcases following.origin x before with placed | ⟨i,owner,made⟩
      · exact Or.inl placed
      · exact Or.inr ⟨i,owner,madeOld i made⟩
    · have last : x = s.readers.size := by omega
      rw [last,new]
      exact Or.inr ⟨_,rfl,(s.reader r).pipe,by rw [splitters,if_pos rfl]⟩
  case outer =>
    intro x q member i owner after
    have bound := putOld x q member
    rw [old x bound] at owner
    rcases made_attach inside after with rfl | before
    · exact sound.reading.owner_ne bound owner
    · exact following.outer x q member i owner before
  case once => exact following.once
  case turns =>
    intro x
    rw [following.turns x]
    constructor
    · rintro ⟨resolved,q,member⟩
      rw [old x (putOld x q member)]
      exact ⟨resolved,q,member⟩
    · rintro ⟨resolved,q,member⟩
      rw [old x (putOld x q member)] at resolved
      exact ⟨resolved,q,member⟩
  case due =>
    intro x member
    rcases List.mem_cons.mp member with rfl | before
    · rw [old x boundD,takes.2.2]
      exact placed
    · rw [old x (pendingOld x before)]
      exact following.due x before
  case idle =>
    intro x member
    rw [old x (pendingOld x member)]
    exact idle x member
  case fresh =>
    intro x member resolved
    rcases List.mem_cons.mp member with rfl | before
    · refine ⟨s.stages.size,?_,by rw [stages,if_pos rfl]⟩
      rw [old x boundD,takes.2.2,splitters,if_pos rfl]
    · rw [old x (pendingOld x before),idle x before] at resolved
      cases resolved
  case waiting =>
    intro x q member
    rw [old x (putOld x q member)]
    exact following.waiting x q member
  case whole =>
    intro q whole x member
    rw [splitters] at whole
    split at whole
    · cases whole
    · rw [old x (putOld x q (mem_consumers.mp member).2)]
      exact following.whole q whole x member
  case split =>
    intro q i behind
    by_cases same : q = (s.reader r).pipe
    · rw [splitters,if_pos same] at behind
      obtain rfl := Option.some.inj behind
      rw [same,following.consumers_attach sound own first takes,stages,if_pos rfl]
      rfl
    · obtain ⟨before,stage⟩ := behindOld q i same behind
      rw [stage,← following.split q i before]
      have absent (x : Nat) (member : x ∈ consumers put took q) : x ≠ d := by
        rintro rfl
        exact same (following.single x q _ (mem_consumers.mp member).2 placed)
      have kept : (consumers put took q).filter (· ∉ d :: r :: rest) =
          (consumers put took q).filter (· ∉ r :: rest) :=
        List.filter_congr fun x member => by simp [absent x member]
      rw [kept]
      refine List.map_congr_left fun x member => ?_
      rw [old x (putOld x q (mem_consumers.mp (List.mem_of_mem_filter member)).2)]
  case several =>
    intro q i behind
    have counted : (r :: rest).countP (fun x =>
        ((s.attach (s.reader r).pipe name).reader x).pipe = q) =
          (r :: rest).countP fun x => (s.reader x).pipe = q :=
      List.countP_congr fun x member => by rw [old x (pendingOld x member)]
    rw [List.countP_cons,old d boundD,takes.2.2,counted]
    by_cases same : q = (s.reader r).pipe
    · simp [same]
      omega
    · obtain ⟨before,stage⟩ := behindOld q i same behind
      rw [stage]
      have enough := following.several q i before
      omega

theorem of_move (following : Following s put took (r :: rest)) (sound : Sound s (r :: rest))
    {i o : Nat} (behind : (s.pipe (s.reader r).pipe).splitter = some i)
    (holds : (s.stage i).operation = some o) :
    Following (s.moveTo i o r) put (s.settled r took) rest := by
  have bound : r < s.readers.size := sound.reading.waiting r (by simp)
  have inside := sound.reading.inside r bound
  have made : s.Made i := ⟨_,behind⟩
  have stages (j : Nat) := stage_moveTo s i o r j (sound.splitting.made_inside made)
  have readers (x : Nat) := reader_moveTo s i o r x bound
  have splitters (q : Nat) := splitter_moveTo s i o r q inside
  have size : (s.moveTo i o r).readers.size = s.readers.size := Array.size_modify
  have pipesSize : (s.moveTo i o r).pipes.size = s.pipes.size + 1 := by simp [moveTo]
  have owner (x : Nat) : ((s.moveTo i o r).reader x).owner = (s.reader x).owner := by
    rw [readers]
    split <;> rfl
  have stays (x : Nat) (other : x ≠ r) : (s.moveTo i o r).reader x = s.reader x := by
    rw [readers,if_neg other]
  have arrives : ((s.moveTo i o r).reader r).pipe = s.pipes.size := by rw [readers,if_pos rfl]
  have resolved (x : Nat) : ((s.moveTo i o r).reader x).resolved = true ↔
      x = r ∨ (s.reader x).resolved = true := by
    rw [readers]
    by_cases same : x = r <;> simp [same]
  have other (x : Nat) (member : x ∈ rest) : x ≠ r := fun same => apart sound (same ▸ member)
  constructor
  case placed =>
    intro x q member
    obtain ⟨before,insideQ,outer⟩ := following.placed x q member
    refine ⟨size ▸ before,by omega,?_⟩
    rintro ⟨j,after,listed⟩
    have old := (made_congr splitters j).mp after
    rw [stages] at listed
    split at listed
    · rcases Array.mem_push.mp listed with before | last
      · exact outer ⟨j,old,before⟩
      · omega
    · exact outer ⟨j,old,listed⟩
  case single => exact following.single
  case origin =>
    intro x before
    simp only [owner,made_congr splitters]
    exact following.origin x (size ▸ before)
  case outer =>
    intro x q member j
    rw [owner,made_congr splitters]
    exact following.outer x q member j
  case once => exact following.settled_nodup
  case turns =>
    intro x
    rw [following.mem_settled_iff,resolved]
  case due =>
    intro x member
    rw [stays x (other x member)]
    exact following.due x (by simp [member])
  case idle =>
    intro x member
    have listed := List.mem_of_mem_tail member
    rw [stays x (other x listed)]
    exact following.idle x listed
  case fresh =>
    intro x member isResolved
    rw [stays x (other x member)] at isResolved
    simp [following.later_idle member] at isResolved
  case waiting =>
    intro x q member idle
    have apart : x ≠ r := by
      rintro rfl
      simp [(resolved x).mpr (Or.inl rfl)] at idle
    rw [stays x apart] at idle ⊢
    exact following.waiting x q member idle
  case whole =>
    intro q whole x member
    rw [splitters] at whole
    have apart : q ≠ (s.reader r).pipe := by
      rintro rfl
      simp [behind] at whole
    rw [following.consumers_settled apart] at member
    rw [stays x (following.consumer_ne apart member)]
    exact following.whole q whole x member
  case split =>
    intro q j after
    rw [splitters] at after
    have others (x : Nat) (member : x ∈ (consumers put took q).filter (· ∉ r :: rest)) : x ≠ r := by
      rintro rfl
      simpa using (List.mem_filter.mp member).2
    have unmoved : ((consumers put took q).filter (· ∉ r :: rest)).map
        (fun x => ((s.moveTo i o r).reader x).pipe) = (s.stage j).outputs.toList := by
      rw [← following.split q j after]
      exact List.map_congr_left fun x member => by rw [stays x (others x member)]
    by_cases same : q = (s.reader r).pipe
    · subst same
      obtain rfl : i = j := Option.some.inj (behind.symm.trans after)
      rw [following.consumers_turn sound behind,List.map_append,unmoved,stages,if_pos rfl,
        Array.toList_push]
      simp [arrives]
    · have different : j ≠ i := fun equal =>
        same (sound.splitting.pipe_unique after (equal ▸ behind))
      rw [following.filter_consumers same,unmoved,stages,if_neg different]
  case several =>
    intro q j after
    rw [splitters] at after
    have before := following.several q j after
    have counted : rest.countP (fun x => ((s.moveTo i o r).reader x).pipe = q) =
        rest.countP fun x => (s.reader x).pipe = q :=
      List.countP_congr fun x member => by rw [stays x (other x member)]
    rw [List.countP_cons] at before
    rw [counted,stages]
    by_cases same : j = i
    · subst same
      rw [if_pos rfl]
      simp only [Array.size_push]
      split at before <;> omega
    · have different : (s.reader r).pipe ≠ q := by
        rintro rfl
        exact same (Option.some.inj (after.symm.trans behind))
      simp only [different,decide_false,Bool.false_eq_true,if_false] at before
      rw [if_neg same]
      exact before

end Turns

theorem of_place (following : Following s put took []) (sound : Sound s []) {list : List Nat}
    (inside : ∀ p ∈ list, p < s.pipes.size) (outer : ∀ p ∈ list, ¬ s.Branch p) :
    Following (s.addChain list) (put ++ numbered s.readers.size list) took [] := by
  have size := readers_size_addChain s list
  refine following.of_readers (fun i made => ?_) (pipes_size_addChain s list) (fun p => ?_)
    (grown_addChain inside) (fun x p member => ?_) (fun x low high => ?_) (by simp)
  · have old := sound.splitting.made_inside made
    rw [stage_addChain,if_neg (Nat.ne_of_lt old)]
  · rw [pipe_addChain s inside,note_splitter]
  · obtain ⟨k,found,rfl⟩ := mem_numbered.mp member
    obtain ⟨small,rfl⟩ := List.getElem?_eq_some_iff.mp found
    have listed := List.getElem_mem small
    have new := reader_addChain_new s list k small
    refine ⟨by omega,by omega,inside _ listed,outer _ listed,by rw [new],by rw [new],?_⟩
    rw [new]
    intro i owner made
    have last : s.stages.size = i := Owner.stage.inj owner
    have := sound.splitting.made_inside made
    omega
  · refine ⟨list.get ⟨x - s.readers.size,by omega⟩,mem_numbered.mpr ⟨x - s.readers.size,?_,by omega⟩⟩
    simp

theorem of_leave (following : Following s put took []) {p : Nat} (inside : p < s.pipes.size)
    (outer : ¬ s.Branch p) :
    Following (s.addReader p .exported) (put ++ [(s.readers.size,p)]) took [s.readers.size] := by
  have record := addReader_eq p .exported s
  have size : (s.addReader p .exported).readers.size = s.readers.size + 1 := by simp [record]
  have new : (s.addReader p .exported).reader s.readers.size = ⟨p,.exported,false⟩ := by
    rw [reader_addReader,if_pos rfl]
  refine following.of_readers (fun i _ => by rw [record]; rfl) (by simp [record]) (fun q => ?_)
    (grown_addReader inside) (fun x q member => ?_) (fun x low high => ?_) (fun x member => ?_)
  · rw [pipe_addReader]
    split
    · rw [note_splitter]
    · rfl
  · obtain ⟨rfl,rfl⟩ : x = s.readers.size ∧ q = p := by simpa using member
    refine ⟨by omega,by omega,inside,outer,by rw [new],by rw [new],?_⟩
    rw [new]
    nofun
  · have last : x = s.readers.size := by omega
    exact ⟨p,by simp [last]⟩
  · exact ⟨p,by simp [List.mem_singleton.mp member]⟩

end Following

theorem Turn.following {l m : Ledger} (turn : Turn l m) (sound : Sound l.session l.pending)
    (following : Following l.session l.put l.took l.pending) :
    Following m.session m.put m.took m.pending := by
  cases turn with
  | take _ _ _ _ _ free => exact following.of_take sound free
  | attach _ _ _ _ _ _ name idle own first takes =>
    exact following.of_attach sound name idle own first takes
  | move _ _ _ _ _ _ _ behind holds => exact following.of_move sound behind holds

/-- The history stays in agreement with whatever is done next. -/
theorem Move.following {l m : Ledger} (move : Move l m) (sound : Sound l.session l.pending)
    (following : Following l.session l.put l.took l.pending) :
    Following m.session m.put m.took m.pending := by
  have untouched := move.untouched sound
  -- Most moves leave the readers and the splits alone.
  have same (readers : m.session.readers = l.session.readers)
      (size : l.session.pipes.size ≤ m.session.pipes.size) (quiet : l.pending = [])
      (before : Following l.session l.put l.took []) : Following m.session l.put l.took [] :=
    before.congr readers size (untouched quiet).splitters fun i made => by
      rw [(untouched quiet).stages i made]
  cases move with
  | anonymous => exact same rfl (by simp [addAnonymous]) rfl following
  | named => exact same rfl (by simp [addPipe]) rfl following
  | stream => exact same rfl (by simp [openStream,addPipe]) rfl following
  | paint => exact same rfl (Nat.le_of_eq Array.size_modify.symm) rfl following
  | retitle => exact same rfl (Nat.le_of_eq Array.size_modify.symm) rfl following
  | place _ _ _ _ inside outer => exact following.of_place sound inside outer
  | append => exact same rfl (Nat.le_refl _) rfl following
  | connect s _ _ i pipes =>
    obtain ⟨table,size,record⟩ := putOutputs_eq s i pipes
    exact same (by rw [record]) (by simp [record,size]) rfl following
  | output => exact same rfl (by simp [addOutput,addAnonymous,modifyStage]) rfl following
  | splice => exact same rfl (Nat.le_refl _) rfl following
  | arguments => exact same rfl (Nat.le_refl _) rfl following
  | hold _ _ _ _ op _ vacant => exact following.of_hold sound op vacant
  | turn _ _ turn => exact turn.following sound following

def Ledger.Kept (l : Ledger) : Prop :=
  Sound l.session l.pending ∧ Following l.session l.put l.took l.pending

theorem Move.kept {l m : Ledger} (move : Move l m) (kept : l.Kept) : m.Kept :=
  ⟨move.sound kept.1,move.following kept.1 kept.2⟩

theorem Moves.kept {l m : Ledger} (moves : Moves l m) (kept : l.Kept) : m.Kept := by
  induction moves with
  | refl => exact kept
  | tail _ move ih => exact move.kept ih

theorem Closing.kept {l m : Ledger} (closing : Closing l m) (kept : l.Kept) : m.Kept := by
  cases closing with
  | leave _ _ _ _ inside outer => exact ⟨kept.1.of_leave inside,kept.2.of_leave inside outer⟩
  | close =>
    refine ⟨kept.1.of_close,?_⟩
    exact kept.2.congr rfl (Nat.le_refl _) (fun _ => rfl) fun _ _ => rfl
  | move _ _ move => exact move.kept kept

theorem Closings.kept {l m : Ledger} (closings : Closings l m) (kept : l.Kept) : m.Kept := by
  induction closings with
  | refl => exact kept
  | tail _ closing ih => exact closing.kept ih

end MediaGraph.Session
