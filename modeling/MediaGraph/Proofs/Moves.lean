import MediaGraph.Proofs.Accounts
import MediaGraph.Proofs.Layout
import MediaGraph.Proofs.Naming
import MediaGraph.Proofs.Splitting

/-! The moves that calls are made of.
A ledger keeps, beside the session, which pipe each reader was put on and in which
order readers got a pipe. Neither is kept by the session, which only knows where a
reader is now. -/
namespace MediaGraph.Session

/-- The session, the readers with the pipes that they were put on, the readers that
have got a pipe in their order, and the ones whose turn has come and not passed. -/
structure Ledger where
  session : Session
  put : List (Nat × Nat)
  took : List Nat
  pending : List Nat

theorem mem_numbered {r : Nat} {pipes : List Nat} {x p : Nat} :
    (x,p) ∈ numbered r pipes ↔ ∃ k, pipes[k]? = some p ∧ x = r + k := by
  rw [numbered,List.mem_iff_getElem?]
  constructor
  · rintro ⟨k,found⟩
    rw [List.getElem?_zip_eq_some] at found
    obtain ⟨number,pipe⟩ := found
    have bound : k < pipes.length := (List.getElem?_eq_some_iff.mp pipe).1
    rw [List.getElem?_range' bound,Nat.one_mul,Option.some.injEq] at number
    exact ⟨k,pipe,number.symm⟩
  · rintro ⟨k,pipe,rfl⟩
    have bound : k < pipes.length := (List.getElem?_eq_some_iff.mp pipe).1
    refine ⟨k,?_⟩
    rw [List.getElem?_zip_eq_some]
    exact ⟨by rw [List.getElem?_range' bound,Nat.one_mul],pipe⟩

/-- A reader that moves because a second one came has had its turn before. -/
def settled (s : Session) (r : Nat) (took : List Nat) : List Nat :=
  if (s.reader r).resolved then took else took ++ [r]

def openStream (spec : String) (s : Session) : Session :=
  { s.addPipe (.ofStream spec) with streams := (spec,s.pipes.size) :: s.streams }

def paint (p : Nat) (media : Media) (hint : Option String) (s : Session) : Session :=
  s.modifyPipe p fun pipe => { pipe with media := media, hint := hint }

def retitle (p : Nat) (name : String) (s : Session) : Session :=
  s.modifyPipe p fun pipe => { pipe with name := name, fixed := true }

def close (s : Session) : Session := { s with completed := true }

/-- A part of what happens when readers have their turns. The reader that has a pipe
becomes pending again when a split goes behind the pipe. -/
inductive Turn : Ledger → Ledger → Prop
  | take (s put took r rest) (free : (s.pipe (s.reader r).pipe).shared = true ∨
      (s.pipe (s.reader r).pipe).taken = false) :
      Turn ⟨s,put,took,r :: rest⟩ ⟨s.takeDirect r,put,s.settled r took,rest⟩
  | attach (s put took r rest d name) (idle : ∀ x ∈ r :: rest, (s.reader x).resolved = false)
      (own : (s.pipe (s.reader r).pipe).shared = false)
      (first : (s.pipe (s.reader r).pipe).splitter = none)
      (takes : s.Takes (r :: rest) d (s.reader r).pipe)
      (kind : Helper.split.filter (s.pipe (s.reader r).pipe).media
        (s.pipe (s.reader r).pipe).describe = .ok name) :
      Turn ⟨s,put,took,r :: rest⟩ ⟨s.attach (s.reader r).pipe name,put,took,d :: r :: rest⟩
  | move (s put took r rest i o) (behind : (s.pipe (s.reader r).pipe).splitter = some i)
      (holds : (s.stage i).operation = some o) (room : (s.stage i).outputs.size < outputLimit) :
      Turn ⟨s,put,took,r :: rest⟩ ⟨s.moveTo i o r,put,s.settled r took,rest⟩

/-- What a call does. Splits that the graph makes by itself are left alone but for the
turns of readers. -/
inductive Move : Ledger → Ledger → Prop
  | anonymous (s put took) : Move ⟨s,put,took,[]⟩ ⟨s.addAnonymous id,put,took,[]⟩
  | named (s put took name) : Move ⟨s,put,took,[]⟩ ⟨s.addPipe (.named name),put,took,[]⟩
  | stream (s put took spec) (unknown : s.streams.lookup spec = none) :
      Move ⟨s,put,took,[]⟩ ⟨s.openStream spec,put,took,[]⟩
  | paint (s put took p media hint)
      (kept : (s.pipe p).media ≠ .unknown → media = (s.pipe p).media) :
      Move ⟨s,put,took,[]⟩ ⟨s.paint p media hint,put,took,[]⟩
  | retitle (s put took p name) (inside : p < s.pipes.size) (free : (s.pipe p).fixed = false) :
      Move ⟨s,put,took,[]⟩ ⟨s.retitle p name,put,took,[]⟩
  | place (s put took pipes) (inside : ∀ p ∈ pipes, p < s.pipes.size)
      (outer : ∀ p ∈ pipes, ¬ s.Branch p) :
      Move ⟨s,put,took,[]⟩ ⟨s.addChain pipes,put ++ numbered s.readers.size pipes,took,[]⟩
  | append (s put took i op) (holds : (s.stage i).operation ≠ none)
      (tail : (s.stage i).next = none) (bare : (s.stage i).outputs = #[]) (other : ¬ s.Made i) :
      Move ⟨s,put,took,[]⟩ ⟨s.append i op,put,took,[]⟩
  | connect (s put took i pipes) (holds : (s.stage i).operation ≠ none)
      (bare : (s.stage i).outputs = #[]) (distinct : pipes.Nodup)
      (inside : ∀ p ∈ pipes, p < s.pipes.size) (unfed : ∀ p ∈ pipes, (s.pipe p).fed = false)
      (other : ¬ s.Made i) :
      Move ⟨s,put,took,[]⟩ ⟨s.putOutputs i pipes,put,took,[]⟩
  | output (s put took i op) (holds : s.operationAt i = some op) (other : ¬ s.Made i) :
      Move ⟨s,put,took,[]⟩ ⟨s.addOutput i op,put,took,[]⟩
  | splice (s put took a b) (insideA : a < s.stages.size) (insideB : b < s.stages.size)
      (tail : (s.stage a).next = none) (apart : a ∉ s.sequence (s.head b))
      (otherA : ¬ s.Made a) (otherB : ¬ s.Made b) :
      Move ⟨s,put,took,[]⟩ ⟨s.splice a (s.head b),put,took,[]⟩
  | arguments (s put took o args) (other : ∀ i, s.Made i → (s.stage i).operation ≠ some o) :
      Move ⟨s,put,took,[]⟩ ⟨s.putArguments o args,put,took,[]⟩
  | hold (s put took i op) (inside : i < s.stages.size) (vacant : (s.stage i).operation = none) :
      Move ⟨s,put,took,[]⟩ ⟨s.hold i op,put,took,(s.stage i).inputs⟩
  | turn (l m) (turn : Turn l m) : Move l m

inductive Closing : Ledger → Ledger → Prop
  | leave (s put took p) (inside : p < s.pipes.size) (outer : ¬ s.Branch p) :
      Closing ⟨s,put,took,[]⟩
        ⟨s.addReader p .exported,put ++ [(s.readers.size,p)],took,[s.readers.size]⟩
  | close (s put took) : Closing ⟨s,put,took,[]⟩ ⟨s.close,put,took,[]⟩
  | move (l m) (move : Move l m) : Closing l m

structure Sound (s : Session) (pending : List Nat) : Prop where
  layout : ∃ chains, Layout s chains
  feeding : Feeding s
  reading : Reading s pending
  splitting : Splitting s
  holding : Holding s
  naming : Naming s
  outer : ∀ r ∈ pending, ∀ i, (s.reader r).owner = .stage i → ¬ s.Made i

theorem made_congr {s t : Session} (splitters : ∀ p, (t.pipe p).splitter = (s.pipe p).splitter)
    (i : Nat) : t.Made i ↔ s.Made i := by simp only [Made,splitters]

namespace Sound
variable {s t : Session} {pending : List Nat}

theorem of_new (serial : Nat) (catalog : Catalog) : Sound (new serial catalog) [] where
  layout := ⟨[],.of_new serial catalog⟩
  feeding := .of_new serial catalog
  reading := .of_new serial catalog
  splitting := .of_new serial catalog
  holding := .of_new serial catalog
  naming := .of_new serial catalog
  outer := by simp

theorem of_pipes (sound : Sound s []) (feeding : Feeding t) (naming : Naming t)
    (stages : t.stages = s.stages) (roots : t.roots = s.roots) (readers : t.readers = s.readers)
    (operations : t.operations = s.operations) (size : s.pipes.size ≤ t.pipes.size)
    (state : ∀ p, (t.pipe p).taken = (s.pipe p).taken ∧
      (t.pipe p).readers = (s.pipe p).readers ∧ (t.pipe p).splitter = (s.pipe p).splitter)
    (kept : ∀ p, p < s.pipes.size → (t.pipe p).shared = (s.pipe p).shared ∧
      ((s.pipe p).media ≠ .unknown → (t.pipe p).media = (s.pipe p).media)) : Sound t [] := by
  have stage (i : Nat) : t.stage i = s.stage i := by rw [Session.stage,Session.stage,stages]
  have reader (r : Nat) : t.reader r = s.reader r := by rw [Session.reader,Session.reader,readers]
  have operation (o : Nat) : t.operation o = s.operation o := by
    rw [Session.operation,Session.operation,operations]
  obtain ⟨chains,layout⟩ := sound.layout
  constructor
  case layout => exact ⟨chains,layout.congr (fun i => by simp [stage]) (by rw [stages]) roots⟩
  case feeding => exact feeding
  case reading =>
    refine sound.reading.congr readers (fun i => by rw [stage]) (fun i _ => by rw [stage]) size
      fun p own => ⟨?_,(state p).1,(state p).2.1⟩
    cases kind : (s.pipe p).shared with
    | false => rfl
    | true => simp [(kept p (inside_of_shared kind)).1,kind] at own
  case splitting =>
    refine sound.splitting.congr (fun p => (state p).2.2) (fun p behind => kept p ?_) (fun i _ => stage i)
      (fun _ r _ _ => reader r) fun _ o _ _ => operation o
    refine getD_bound s.pipes (.anonymous "") p fun same => behind ?_
    rw [pipe,same]
    rfl
  case holding => exact sound.holding.congr (fun i => by rw [stage]) (by rw [operations])
  case naming => exact naming
  case outer => simp

theorem of_anonymous (sound : Sound s []) : Sound (s.addAnonymous id) [] := by
  have size : (s.addAnonymous id).pipes.size = s.pipes.size + 1 := Array.size_push ..
  have new : (s.addAnonymous id).pipe s.pipes.size = .anonymous s.freshName := by
    rw [pipe_addAnonymous,if_pos rfl,id_eq]
  have old (p : Nat) (other : p ≠ s.pipes.size) : (s.addAnonymous id).pipe p = s.pipe p := by
    rw [pipe_addAnonymous,if_neg other]
  have same (p : Nat) : ∃ name, (s.addAnonymous id).pipe p = { s.pipe p with name := name } := by
    by_cases last : p = s.pipes.size
    · exact ⟨s.freshName,by rw [last,new]; simp [pipe,Pipe.anonymous]⟩
    · exact ⟨_,old p last⟩
  refine sound.of_pipes (t := s.addAnonymous id) ?_ ?_ rfl rfl rfl rfl (by omega) ?_ ?_
  · refine sound.feeding.congr (fun _ => rfl) (fun _ holds => holds) fun p => ?_
    obtain ⟨name,equal⟩ := same p
    simp [equal]
  · exact sound.naming.push rfl size (fun _ => by rw [new]; exact s.freshName_generated)
      (by rw [new]; rfl) fun p other => by simp [old p other]
  · intro p
    obtain ⟨name,equal⟩ := same p
    simp [equal]
  · intro p inside
    rw [old p (Nat.ne_of_lt inside)]
    exact ⟨rfl,fun _ => rfl⟩

theorem of_named (sound : Sound s []) (name : String) : Sound (s.addPipe (.named name)) [] := by
  let made := Pipe.named name
  have size : (s.addPipe made).pipes.size = s.pipes.size + 1 := Array.size_push ..
  have new : (s.addPipe made).pipe s.pipes.size = made := by rw [pipe_addPipe,if_pos rfl]
  have old (p : Nat) (other : p ≠ s.pipes.size) : (s.addPipe made).pipe p = s.pipe p := by
    rw [pipe_addPipe,if_neg other]
  have same (p : Nat) : ∃ name fixed,
      (s.addPipe made).pipe p = { s.pipe p with name := name, fixed := fixed } := by
    by_cases last : p = s.pipes.size
    · exact ⟨name,true,by rw [last,new]; simp [pipe,made,Pipe.named,Pipe.anonymous]⟩
    · exact ⟨_,_,old p last⟩
  refine sound.of_pipes (t := s.addPipe made) ?_ ?_ rfl rfl rfl rfl (by omega) ?_ ?_
  · refine sound.feeding.congr (fun _ => rfl) (fun _ holds => holds) fun p => ?_
    obtain ⟨name,fixed,equal⟩ := same p
    simp [equal]
  · exact sound.naming.push rfl size (fun free => by rw [new] at free; cases free)
      (by rw [new]; rfl) fun p other => by simp [old p other]
  · intro p
    obtain ⟨name,fixed,equal⟩ := same p
    simp [equal]
  · intro p inside
    rw [old p (Nat.ne_of_lt inside)]
    exact ⟨rfl,fun _ => rfl⟩

theorem of_stream (sound : Sound s []) {spec : String} (unknown : s.streams.lookup spec = none) :
    Sound (s.openStream spec) [] := by
  have size : (s.openStream spec).pipes.size = s.pipes.size + 1 := Array.size_push ..
  have pipes (p : Nat) : (s.openStream spec).pipe p = _ := pipe_addPipe s (.ofStream spec) p
  have new : (s.openStream spec).pipe s.pipes.size = .ofStream spec := by rw [pipes,if_pos rfl]
  have old (p : Nat) (other : p ≠ s.pipes.size) : (s.openStream spec).pipe p = s.pipe p := by
    rw [pipes,if_neg other]
  refine sound.of_pipes (t := s.openStream spec) ?_ ?_ rfl rfl rfl rfl (by omega) ?_ ?_
  · exact sound.feeding.of_stream rfl old (by rw [new]; exact ⟨rfl,rfl⟩)
  · exact sound.naming.of_stream unknown rfl size new old
  · intro p
    by_cases last : p = s.pipes.size
    · rw [last,new]
      simp [pipe,Pipe.ofStream,Pipe.named,Pipe.anonymous]
    · rw [old p last]
      exact ⟨rfl,rfl,rfl⟩
  · intro p inside
    rw [old p (Nat.ne_of_lt inside)]
    exact ⟨rfl,fun _ => rfl⟩

theorem of_paint (sound : Sound s []) {p : Nat} {media : Media} (hint : Option String)
    (kept : (s.pipe p).media ≠ .unknown → media = (s.pipe p).media) :
    Sound (s.paint p media hint) [] := by
  have size : (s.paint p media hint).pipes.size = s.pipes.size := Array.size_modify
  have pipes (q : Nat) : (s.paint p media hint).pipe q = _ := pipe_modifyPipe ..
  have same (q : Nat) : ∃ media' hint', (s.paint p media hint).pipe q =
      { s.pipe q with media := media', hint := hint' } := by
    rw [pipes]
    split
    · exact ⟨_,_,rfl⟩
    · exact ⟨_,_,rfl⟩
  refine sound.of_pipes (t := s.paint p media hint) ?_ ?_ rfl rfl rfl rfl (by omega) ?_ ?_
  · refine sound.feeding.congr (fun _ => rfl) (fun _ holds => holds) fun q => ?_
    obtain ⟨_,_,equal⟩ := same q
    simp [equal]
  · refine sound.naming.congr rfl size fun q => ?_
    obtain ⟨_,_,equal⟩ := same q
    simp [equal]
  · intro q
    obtain ⟨_,_,equal⟩ := same q
    simp [equal]
  · intro q inside
    rw [pipes]
    by_cases equal : q = p
    · rw [if_pos ⟨equal,inside⟩,equal]
      exact ⟨rfl,kept⟩
    · rw [if_neg (fun both => equal both.1)]
      exact ⟨rfl,fun _ => rfl⟩

theorem of_retitle (sound : Sound s []) {p : Nat} (name : String) (inside : p < s.pipes.size)
    (free : (s.pipe p).fixed = false) : Sound (s.retitle p name) [] := by
  have size : (s.retitle p name).pipes.size = s.pipes.size := Array.size_modify
  have pipes (q : Nat) : (s.retitle p name).pipe q = _ := pipe_modifyPipe ..
  have same (q : Nat) : ∃ name' fixed, (s.retitle p name).pipe q =
      { s.pipe q with name := name', fixed := fixed } := by
    rw [pipes]
    split
    · exact ⟨_,_,rfl⟩
    · exact ⟨_,_,rfl⟩
  have own : (s.pipe p).shared = false := by
    cases kind : (s.pipe p).shared with
    | false => rfl
    | true => simp [(sound.naming.stream p kind).1] at free
  refine sound.of_pipes (t := s.retitle p name) ?_ ?_ rfl rfl rfl rfl (by omega) ?_ ?_
  · refine sound.feeding.congr (fun _ => rfl) (fun _ holds => holds) fun q => ?_
    obtain ⟨_,_,equal⟩ := same q
    simp [equal]
  · refine sound.naming.of_called (q := p) rfl size own (fun chosen => ?_) ?_ fun q other => ?_
    · rw [pipes,if_pos ⟨rfl,inside⟩] at chosen
      simp at chosen
    · obtain ⟨_,_,equal⟩ := same p
      simp [equal]
    · rw [pipes,if_neg (fun both => other both.1)]
      exact ⟨rfl,rfl,rfl⟩
  · intro q
    obtain ⟨_,_,equal⟩ := same q
    simp [equal]
  · intro q _
    obtain ⟨_,_,equal⟩ := same q
    rw [pipes]
    split <;> exact ⟨rfl,fun _ => rfl⟩

theorem of_close (sound : Sound s []) : Sound s.close [] := by
  refine sound.of_pipes (t := s.close) ?_ ?_ rfl rfl rfl rfl (Nat.le_refl _) ?_ ?_
  · exact sound.feeding.congr (fun _ => rfl) (fun _ holds => holds) fun _ => ⟨rfl,rfl⟩
  · exact sound.naming.congr rfl rfl fun _ => ⟨rfl,rfl,rfl⟩
  · exact fun _ => ⟨rfl,rfl,rfl⟩
  · exact fun _ _ => ⟨rfl,fun _ => rfl⟩

end Sound
end MediaGraph.Session
