import MediaGraph.Proofs.Aside
import MediaGraph.Proofs.Chaining
import MediaGraph.Proofs.Consumers
import MediaGraph.Proofs.Refusals

/-! What keeps a chain from getting its operation.
The inputs of a placeholder have their turns from left to right. An input is in the way if
its pipe has a consumer already and either there is no split for the media of the pipe or
the split has all the outputs that it may have. Nothing else can be wrong. -/
namespace MediaGraph
open Session

def Media.splitName (media : Media) : String := if media = .audio then "asplit" else "split"

/-- Why a pipe that has so many consumers has nothing for another one. -/
inductive Pipe.Refuses (p : Pipe) (consumers : Nat) : GraphError → Prop
  | unsplit (own : p.shared = false) (busy : 0 < consumers) (first : p.splitter = none)
      (video : p.media ≠ .video) (audio : p.media ≠ .audio) :
      Refuses p consumers (.missingMapping
        (if p.media = .unknown then .unknownMedia "fan-out" p.describe
          else .noEquivalent "fan-out" p.media p.describe))
  | full (own : p.shared = false) (known : p.media = .video ∨ p.media = .audio)
      (limit : consumers = outputLimit) :
      Refuses p consumers (.unboundedIteration ("chain '" ++ p.media.splitName ++ "'"))

theorem Pipe.Refuses.congr {p q : Pipe} {consumers : Nat} {e : GraphError}
    (refuses : p.Refuses consumers e) (shared : q.shared = p.shared) (media : q.media = p.media)
    (describe : q.describe = p.describe)
    (first : q.media ≠ .video → q.media ≠ .audio → q.splitter = none) : q.Refuses consumers e := by
  cases refuses with
  | unsplit own busy _ video audio =>
    rw [← media] at video audio ⊢
    rw [← describe]
    exact .unsplit (shared.trans own) busy (first video audio) video audio
  | full own known limit =>
    rw [← media] at known ⊢
    exact .full (shared.trans own) known limit

namespace Session

def fanOut (s : Session) (p : Nat) : Option Nat :=
  (s.pipe p).splitter.map fun i => (s.stage i).outputs.size

def Limited (s : Session) : Prop := ∀ i, s.Made i → (s.stage i).outputs.size ≤ outputLimit

section Limits
variable {s t : Session}

theorem Limited.of_untouched (limited : Limited s) (untouched : Untouched s t) : Limited t := by
  intro i made
  have before := (made_congr untouched.splitters i).mp made
  rw [untouched.stages i before]
  exact limited i before

theorem Turn.limited {l m : Ledger} (turn : Turn l m) (sound : Sound l.session l.pending)
    (limited : Limited l.session) : Limited m.session := by
  intro i made
  cases turn with
  | take s _ _ r =>
    have inside := sound.reading.inside r (sound.reading.waiting r (by simp))
    exact limited.of_untouched (.of_takeDirect inside) i made
  | attach s _ _ r _ _ name _ _ _ takes =>
    rw [stage_attach]
    split
    · exact Nat.zero_le _
    next other =>
      rcases made_attach (sound.reading.pipe_inside takes) made with last | before
      · exact absurd last other
      · exact limited i before
  | move s _ _ r _ j o behind holds room =>
    rw [stage_moveTo s j o r i (inside_of_holds (by simp [holds]))]
    split
    next same =>
      rw [same,Array.size_push]
      exact room
    next =>
      have inside := sound.reading.inside r (sound.reading.waiting r (by simp))
      exact limited i ((made_congr (fun q => splitter_moveTo s j o r q inside) i).mp made)

theorem Move.limited {l m : Ledger} (move : Move l m) (sound : Sound l.session l.pending)
    (limited : Limited l.session) : Limited m.session := by
  have untouched := move.untouched sound
  cases move with
  | turn _ _ turn => exact turn.limited sound limited
  | _ => exact limited.of_untouched (untouched rfl)

theorem Moves.limited {l m : Ledger} (moves : Moves l m) (kept : l.Kept)
    (limited : Limited l.session) : Limited m.session := by
  induction moves with
  | refl => exact limited
  | tail moves move ih => exact move.limited (Moves.kept moves kept).1 ih

theorem Closings.limited {l m : Ledger} (closings : Closings l m) (kept : l.Kept)
    (limited : Limited l.session) : Limited m.session := by
  induction closings with
  | refl => exact limited
  | tail closings closing ih =>
    cases closing with
    | leave s _ _ p => exact ih.of_untouched (.of_addReader p .exported)
    | close => exact ih
    | move _ _ move => exact move.limited (Closings.kept closings kept).1 ih

end Limits

section Guises
variable {s t u : Session}

def Alike (s t : Session) : Prop :=
  ∀ p, p < s.pipes.size → (t.pipe p).shared = (s.pipe p).shared ∧
    (t.pipe p).media = (s.pipe p).media ∧ (t.pipe p).describe = (s.pipe p).describe

theorem Turn.alike {l m : Ledger} (turn : Turn l m) (sound : Sound l.session l.pending)
    (labelled : Labelled l.session []) : Alike l.session m.session := by
  intro q old
  cases turn with
  | take s _ _ r =>
    have inside := sound.reading.inside r (sound.reading.waiting r (by simp))
    rw [pipe_takeDirect s r q inside]
    split
    · split <;> exact ⟨rfl,rfl,rfl⟩
    · exact ⟨rfl,rfl,rfl⟩
  | attach s _ _ r _ _ name _ _ _ takes =>
    rw [pipe_attach s _ name q (sound.reading.pipe_inside takes)]
    split
    · unfold note
      split <;> exact ⟨rfl,rfl,rfl⟩
    · exact ⟨rfl,rfl,rfl⟩
  | move s _ _ r _ i o =>
    have bound := sound.reading.waiting r (by simp)
    have stays : (s.reader r).owner ≠ .exported := by
      intro leaves
      obtain ⟨_,none⟩ := (labelled.exported r bound).mp leaves
      simp at none
    rw [pipe_moveTo s i o r q (sound.reading.inside r bound),if_neg (Nat.ne_of_lt old)]
    split
    · simp [deserted,stays,Pipe.describe,Pipe.label]
    · exact ⟨rfl,rfl,rfl⟩

theorem Turns.alike {l m : Ledger} (turns : Turns l m) (kept : l.Kept)
    (labelled : Labelled l.session []) : Alike l.session m.session ∧ Labelled m.session [] := by
  induction turns with
  | refl => exact ⟨fun _ _ => ⟨rfl,rfl,rfl⟩,labelled⟩
  | tail turns turn ih =>
    obtain ⟨same,before⟩ := ih
    have sound := (Moves.kept (Turns.moves turns) kept).1
    have grown := (Turns.steady turns kept).pipes
    refine ⟨fun p old => ?_,before.of_turn turn sound⟩
    obtain ⟨shared,media,describe⟩ := same p old
    obtain ⟨shared',media',describe'⟩ := turn.alike sound before p (Nat.lt_of_lt_of_le old grown)
    exact ⟨shared'.trans shared,media'.trans media,describe'.trans describe⟩

end Guises

section Queues
variable {s t : Session} {put : List (Nat × Nat)} {took rest : List Nat} {r p : Nat} {e : GraphError}

theorem Splitting.none_of_media (splitting : s.Splitting) (video : (s.pipe p).media ≠ .video)
    (audio : (s.pipe p).media ≠ .audio) : (s.pipe p).splitter = none := by
  cases behind : (s.pipe p).splitter with
  | none => rfl
  | some i =>
    obtain ⟨o,x,duplicates⟩ := splitting p i behind
    rcases duplicates.media with known | known
    · exact absurd known video
    · exact absurd known audio

theorem taken_of_consumer (kept : Ledger.Kept ⟨s,put,took,r :: rest⟩)
    (idle : ∀ x ∈ r :: rest, (s.reader x).resolved = false) (own : (s.pipe p).shared = false)
    (some : 0 < (consumers put took p).length) : (s.pipe p).taken = true := by
  refine (kept.1.reading.taken p own).mpr ?_
  cases behind : (s.pipe p).splitter with
  | none =>
    obtain ⟨x,member⟩ := List.exists_mem_of_length_pos some
    obtain ⟨resolved,past⟩ := consumer_past idle kept member
    exact ⟨x,resolved,past,kept.2.whole p behind x member⟩
  | some i =>
    obtain ⟨o,x,duplicates⟩ := kept.1.splitting p i behind
    have resolved : (s.reader x).resolved = true := by rw [duplicates.reader]
    refine ⟨x,resolved,fun pending => ?_,by rw [duplicates.reader]⟩
    simp [idle x pending] at resolved

theorem consumer_of_taken (kept : Ledger.Kept ⟨s,put,took,r :: rest⟩)
    (own : (s.pipe p).shared = false) (first : (s.pipe p).splitter = none)
    (outer : ¬ s.Branch p) (taken : (s.pipe p).taken = true) :
    0 < (consumers put took p).length := by
  obtain ⟨x,takes⟩ := (kept.1.reading.taken p own).mp taken
  rcases takes_cases kept takes with member | branch | ⟨i,behind,_⟩
  · exact List.length_pos_of_mem member
  · exact absurd branch outer
  · simp [first] at behind

theorem splitFilter_error {media : Media} {subject : String} :
    Helper.split.filter media subject = .error e ↔ media ≠ .video ∧ media ≠ .audio ∧
      e = .missingMapping (if media = .unknown then .unknownMedia "fan-out" subject
        else .noEquivalent "fan-out" media subject) := by
  cases media <;> simp [Helper.filter,Helper.text,eq_comm]

theorem describe_split {i o x : Nat} (duplicates : s.Duplicates p i o x) :
    s.describe i = "chain '" ++ (s.pipe p).media.splitName ++ "'" := by
  have held : s.operationAt i = some (duplicator (s.pipe p).media (s.stage i).outputs.size) := by
    simp [operationAt,duplicates.holds,duplicates.operation]
  rw [describe,held]
  rfl

/-- The flags of a pipe say that the turn of a reader would fail exactly if the number of
its consumers does. -/
theorem blocked_iff (kept : Ledger.Kept ⟨s,put,took,r :: rest⟩) (limited : s.Limited)
    (idle : ∀ x ∈ r :: rest, (s.reader x).resolved = false) :
    s.Blocked r e ↔ (s.pipe (s.reader r).pipe).Refuses
      (consumers put took (s.reader r).pipe).length e := by
  have outer := (kept.2.placed r _ (kept.2.due r (by simp))).2.2
  constructor
  · rintro ⟨own,taken,⟨first,kind⟩ | ⟨i,behind,full,rfl⟩⟩
    · obtain ⟨video,audio,rfl⟩ := splitFilter_error.mp kind
      exact .unsplit own (consumer_of_taken kept own first outer taken) first video audio
    · obtain ⟨o,x,duplicates⟩ := kept.1.splitting _ i behind
      rw [describe_split duplicates]
      refine .full own duplicates.media ?_
      rw [consumers_size idle kept behind]
      exact Nat.le_antisymm (limited i ⟨_,behind⟩) full
  · intro refuses
    cases refuses with
    | unsplit own busy first video audio =>
      exact ⟨own,taken_of_consumer kept idle own busy,
        .inl ⟨first,splitFilter_error.mpr ⟨video,audio,rfl⟩⟩⟩
    | full own known limit =>
      refine ⟨own,taken_of_consumer kept idle own (by simp [limit,outputLimit]),.inr ?_⟩
      cases behind : (s.pipe (s.reader r).pipe).splitter with
      | none =>
        have few := consumers_few idle kept own behind
        simp [limit,outputLimit] at few
      | some i =>
        obtain ⟨o,x,duplicates⟩ := kept.1.splitting _ i behind
        refine ⟨i,rfl,?_,by rw [describe_split duplicates]⟩
        exact Nat.le_of_eq (limit.symm.trans (consumers_size idle kept behind))

theorem outputAt_limit {i n : Nat} {op : Operation} (isOpen : s.completed = false)
    (held : s.operationAt i = some op) (tail : (s.stage i).next = none)
    (new : (s.stage i).outputs[n]? = none) (more : op.outputs.lacks n = false)
    (limit : outputLimit ≤ n) : outputAt i n s = .error (.unboundedIteration (s.describe i)) s := by
  simp only [outputAt,bind_error,get_error,get_ok,false_or,and_assoc,exists_and_left,
    exists_eq_left,held,new,requireOpen,requireTail,choice_error,choice_ok,throw_error,throw_ok,
    pure_error,pure_ok,bind_ok,isOpen,more,ge_iff_le,limit]
  simpa using tail

theorem Blocked.resolve_error (blocked : s.Blocked r e) (splitting : s.Splitting)
    (isOpen : s.completed = false) : resolve r s = .error e s := by
  obtain ⟨own,taken,why⟩ := blocked
  simp only [resolve,bind_error,get_error,get_ok,false_or,and_assoc,exists_and_left,
    exists_eq_left,choice_error,own,taken,Bool.not_true,Bool.or_self,Bool.false_eq_true,
    not_false_eq_true,true_and,false_and,branch]
  refine .inl ?_
  rcases why with ⟨first,kind⟩ | ⟨i,behind,full,rfl⟩
  · simp only [first,bind_error,insertSplitter,get_error,get_ok,false_or,and_assoc,
      exists_and_left,exists_eq_left,kind,throw_error,true_and]
    exact .inl trivial
  · obtain ⟨o,x,duplicates⟩ := splitting _ i behind
    have held : s.operationAt i = some (s.operation o) := by simp [operationAt,duplicates.holds]
    have dynamic : (s.operation o).outputs.lacks (s.stage i).outputs.size = false := by
      rw [duplicates.operation]
      rfl
    simp only [behind,nextBranch,bind_error,get_error,get_ok,false_or,and_assoc,exists_and_left,
      exists_eq_left]
    exact .inl (outputAt_limit isOpen held duplicates.alone.2 (by simp) dynamic full)

theorem resolveAll_append {first second : List Nat} {u : Unit}
    (called : resolveAll (first ++ second) s = .ok u t) :
    ∃ v, resolveAll first s = .ok () v ∧ resolveAll second v = .ok () t := by
  induction first generalizing s with
  | nil => exact ⟨s,rfl,called⟩
  | cons r rest ih =>
    obtain ⟨_,v,resolved,called⟩ := bind_ok.mp called
    obtain ⟨w,before,after⟩ := ih called
    exact ⟨w,bind_ok.mpr ⟨_,v,resolved,before⟩,after⟩

end Queues

end Session

namespace Account
variable {catalog : Catalog} {a : Account}

theorem Reached.runs (reached : Reached catalog a) :
    ∃ serial, Runs (Session.new serial catalog) a.session := by
  induction reached with
  | new serial => exact ⟨serial,.refl _⟩
  | call c answer t _ _ answered ih =>
    obtain ⟨serial,runs⟩ := ih
    have more := runs.run (.call c)
    rw [leaves_ok answered] at more
    exact ⟨serial,more⟩

theorem Reached.limited (reached : Reached catalog a) : a.session.Limited := by
  induction reached with
  | new serial =>
    rintro i ⟨p,behind⟩
    simp [Account.new,Session.new,Session.pipe,Pipe.anonymous] at behind
  | call c answer t before known answered ih =>
    have kept := before.consistent.kept
    have closings := (perform_reaches kept (known.issued before.consistent) answered).1.closings
    exact Closings.limited closings kept ih

/-- The consumers that pipe `p` has when input `k` of stage `i` has its turn. -/
def ahead (a : Account) (i k p : Nat) : Nat :=
  (a.consumersOf p).length + ((a.session.inputPipes i).take k).count p

def Obstructed (a : Account) (i k p : Nat) (e : GraphError) : Prop :=
  (a.session.inputPipes i)[k]? = some p ∧ (a.session.pipe p).Refuses (a.ahead i k p) e

/-- The first input that is obstructed, and what there is behind its pipe when it has its turn. -/
structure StopsFirst (a : Account) (t : Session) (i k p : Nat) (e : GraphError) : Prop where
  obstructed : a.Obstructed i k p e
  first : ∀ j q e', a.Obstructed i j q e' → k ≤ j
  behind : t.fanOut p = none ∧ (∃ m, e = .missingMapping m) ∨
    t.fanOut p = some outputLimit ∧ ∃ chain, e = .unboundedIteration chain

section Turns
variable {i k p r : Nat} {op : Operation} {before rest : List Nat} {v : Session} {e : GraphError}

structure Due (a : Account) (v : Session) (before : List Nat) (r : Nat) (rest : List Nat) : Prop where
  kept : Ledger.Kept ⟨v,a.put,a.took ++ before,r :: rest⟩
  reader : v.reader r = a.session.reader r
  idle : ∀ x ∈ r :: rest, (v.reader x).resolved = false
  alike : Alike a.session v
  limited : v.Limited
  isOpen : v.completed = false

variable (consistent : a.Consistent) (vacant : (a.session.stage i).operation = none)
include consistent vacant

theorem consumers_ahead (inputs : (a.session.stage i).inputs = before ++ rest) :
    (consumers a.put (a.took ++ before) p).length = a.ahead i before.length p := by
  have mine (r : Nat) (member : r ∈ before) :
      (r,p) ∈ a.put ↔ (a.session.reader r).pipe = p := by
    have placed : (r,(a.session.reader r).pipe) ∈ a.put :=
      consistent.kept.2.put_of_vacant consistent.kept.1 vacant (by simp [inputs,member])
    constructor
    · exact fun other => consistent.kept.2.single r _ _ placed other
    · exact fun same => same ▸ placed
  have queue : ((a.session.inputPipes i).take before.length) =
      before.map fun r => (a.session.reader r).pipe := by
    simp [inputPipes,inputs]
  rw [consumers,List.filter_append,List.length_append,ahead,queue,List.count_eq_countP,
    List.countP_map,← List.countP_eq_length_filter (l := before)]
  congr 1
  refine List.countP_congr fun r member => ?_
  simp [mine r member]

theorem Due.blocked_iff (due : a.Due v before r rest)
    (inputs : (a.session.stage i).inputs = before ++ r :: rest) :
    v.Blocked r e ↔ a.Obstructed i before.length (a.session.reader r).pipe e := by
  have inside : (a.session.reader r).pipe < a.session.pipes.size := by
    have member : r ∈ (a.session.stage i).inputs := by simp [inputs]
    exact consistent.kept.1.reading.inside r ((consistent.kept.1.reading.pads i r).mp member).1
  obtain ⟨shared,media,describe⟩ := due.alike _ inside
  have asked : (a.session.inputPipes i)[before.length]? = some (a.session.reader r).pipe := by
    simp [inputPipes,inputs]
  rw [Session.blocked_iff due.kept due.limited due.idle,due.reader,
    consumers_ahead consistent vacant inputs,Obstructed]
  constructor
  · exact fun refuses => ⟨asked,refuses.congr shared.symm media.symm describe.symm
      consistent.kept.1.splitting.none_of_media⟩
  · exact fun obstructed => obstructed.2.congr shared media describe
      due.kept.1.splitting.none_of_media

variable (isOpen : a.session.completed = false) (limited : a.session.Limited)
  (inside : i < a.session.stages.size)
include isOpen limited inside

theorem due_of_ran (inputs : (a.session.stage i).inputs = before ++ r :: rest)
    (ran : resolveAll before (a.session.hold i op) = .ok () v) : a.Due v before r rest := by
  have held := Move.hold a.session a.put a.took i op inside vacant
  have keptHeld := held.kept consistent.kept
  have idle (x : Nat) (member : x ∈ (a.session.stage i).inputs) :
      ((a.session.hold i op).reader x).resolved = false :=
    consistent.kept.1.reading.idle_of_vacant vacant member
  rw [inputs] at held keptHeld idle
  obtain ⟨turns,later⟩ := resolveAll_turns keptHeld idle ran
  have labelled : Labelled (a.session.hold i op) [] :=
    Moves.labelled (.single held) consistent.kept (consistent.enclosed isOpen)
  constructor
  case kept => exact turns.moves.kept keptHeld
  case reader => exact later r (by simp)
  case idle =>
    exact fun x member => (congrArg Reader.resolved (later x member)).trans
      (idle x (List.mem_append_right _ member))
  case alike => exact (Turns.alike turns keptHeld labelled).1
  case limited => exact Moves.limited (.head held turns.moves) consistent.kept limited
  case isOpen => exact (Moves.completed turns.moves).trans isOpen

theorem not_obstructed {done : List Nat} (inputs : (a.session.stage i).inputs = done ++ rest)
    (ran : resolveAll done (a.session.hold i op) = .ok () v) (early : k < done.length) :
    ¬ a.Obstructed i k p e := by
  intro obstructed
  obtain ⟨before,r,after,rfl,rfl⟩ : ∃ before r after, done = before ++ r :: after ∧
      before.length = k := by
    refine ⟨done.take k,done[k],done.drop (k + 1),?_,by simp; omega⟩
    rw [← List.drop_eq_getElem_cons early,List.take_append_drop]
  obtain ⟨u,first,more⟩ := resolveAll_append ran
  obtain ⟨_,w,resolved,_⟩ := bind_ok.mp more
  rw [List.append_assoc,List.cons_append] at inputs
  have asked : (a.session.inputPipes i)[before.length]? = some (a.session.reader r).pipe := by
    simp [inputPipes,inputs]
  obtain rfl : (a.session.reader r).pipe = p := Option.some.inj (asked.symm.trans obstructed.1)
  have due := due_of_ran consistent vacant isOpen limited inside inputs first
  have blocked := (due.blocked_iff consistent vacant inputs).mpr obstructed
  have refused := blocked.resolve_error due.kept.1.splitting due.isOpen
  rw [resolved] at refused
  cases refused

theorem stopsFirst_of_blocked (inputs : (a.session.stage i).inputs = before ++ r :: rest)
    (ran : resolveAll before (a.session.hold i op) = .ok () v) (blocked : v.Blocked r e) :
    a.StopsFirst v i before.length (a.session.reader r).pipe e := by
  have due := due_of_ran consistent vacant isOpen limited inside inputs ran
  constructor
  case obstructed => exact (due.blocked_iff consistent vacant inputs).mp blocked
  case first =>
    intro j q e' obstructed
    rcases Nat.lt_or_ge j before.length with early | late
    · exact absurd obstructed
        (not_obstructed consistent vacant isOpen limited inside inputs ran early)
    · exact late
  case behind =>
    obtain ⟨_,_,why⟩ := blocked
    rw [due.reader] at why
    rcases why with ⟨first,kind⟩ | ⟨j,behind,full,rfl⟩
    · exact .inl ⟨by simp [fanOut,first],_,(splitFilter_error.mp kind).2.2⟩
    · have exact : (v.stage j).outputs.size = outputLimit :=
        Nat.le_antisymm (due.limited j ⟨_,behind⟩) full
      exact .inr ⟨by simp [fanOut,behind,exact],_,rfl⟩

end Turns

/-- A placeholder gets its operation unless one of its inputs is obstructed, and otherwise the
first of them says what was wrong; nothing else can be. -/
theorem extend_obstructed (reached : Reached catalog a) (isOpen : a.session.completed = false)
    {chain : ChainId} (given : chain ∈ a.chains)
    (vacant : (a.session.stage chain.index).operation = none) (op : Operation) :
    ((∃ e t, extend chain op a.session = .error e t) ↔
      ∃ k p e, a.Obstructed chain.index k p e) ∧
    ∀ e t, extend chain op a.session = .error e t →
      ∃ k p, a.StopsFirst t chain.index k p e := by
  have consistent := reached.consistent
  obtain ⟨own,inside,_⟩ := consistent.issued.chain chain given
  obtain ⟨serial,runs⟩ := reached.runs
  obtain ⟨_,ended⟩ :=
    chained_of_changes runs.changes ⟨[],.of_new serial catalog⟩ (.of_new serial catalog)
  have tail := (ended.placeholder chain.index vacant).1
  have away : ¬ a.session.TurnedAway chain := not_turnedAway.mpr ⟨isOpen,own,inside,tail⟩
  have stops (e : GraphError) (t : Session) (refused : extend chain op a.session = .error e t) :
      ∃ k p, a.StopsFirst t chain.index k p e := by
    rcases extend_error vacant refused with ⟨turned,_⟩ | ⟨_,failed⟩
    · exact absurd turned away
    · obtain ⟨before,r,after,stopped,_⟩ := stopsAt_of_error consistent.kept vacant away failed
      exact ⟨_,_,stopsFirst_of_blocked consistent vacant isOpen reached.limited inside
        stopped.inputs stopped.turns stopped.blocked⟩
  refine ⟨⟨?_,?_⟩,stops⟩
  · rintro ⟨e,t,refused⟩
    obtain ⟨k,p,first⟩ := stops e t refused
    exact ⟨k,p,e,first.obstructed⟩
  · rintro ⟨k,p,e,obstructed⟩
    cases called : extend chain op a.session with
    | error other t => exact ⟨other,t,rfl⟩
    | ok next t =>
      obtain ⟨_,_,_,_,⟨_,_,ran⟩ | ⟨holds,_⟩⟩ := extend_ok.mp called
      · have early : k < (a.session.stage chain.index).inputs.length := by
          obtain ⟨bound,_⟩ := List.getElem?_eq_some_iff.mp obstructed.1
          simpa [inputPipes] using bound
        exact absurd obstructed (not_obstructed consistent vacant isOpen reached.limited inside
          (List.append_nil _).symm ran early)
      · exact absurd vacant holds

/-- A pipe that a chain reads already, and whose media are not known, cannot be fanned out. -/
theorem extend_obstructed_raw : ∃ a e t, run? rawSource (.new 0 .empty) = some a ∧
    extend ⟨0,2⟩ (.named "vflip") a.session = .error e t ∧
    e = .missingMapping (.unknownMedia "fan-out" "[raw]") ∧ ∃ k p, a.StopsFirst t 2 k p e := by
  have runs : (run? rawSource (.new 0 .empty)).any (fun a =>
      !a.session.completed && a.chains.contains ⟨0,2⟩ && (a.session.stage 2).operation.isNone &&
        fails (extend ⟨0,2⟩ (.named "vflip")) a.session fun e _ =>
          e == .missingMapping (.unknownMedia "fan-out" "[raw]")) = true := by decide +kernel
  obtain ⟨a,ran,facts⟩ := (Option.any_eq_true ..).mp runs
  simp only [Bool.and_eq_true,Bool.not_eq_true',Option.isNone_iff_eq_none,List.contains_iff_mem]
    at facts
  obtain ⟨⟨⟨isOpen,given⟩,vacant⟩,failed⟩ := facts
  obtain ⟨e,t,refused,named⟩ := error_of_fails failed
  have halts := (extend_obstructed ((Reached.new 0).run ran) isOpen given vacant _).2 e t refused
  exact ⟨a,e,t,ran,refused,eq_of_beq named,halts⟩

end Account
end MediaGraph
