import MediaGraph.Proofs.Refusals
import MediaGraph.Proofs.WellFormed

/-! What a connection leaves when it fails.
Its guards, and whether the pipes are of this session, come before anything is done. Then the pipes
are fed one by one up to the first that is fed already, and those before it stay fed; the pads of the
chain are only set once all of them are. -/
namespace MediaGraph.Session

section Feeding
variable {s t : Session} {chain : ChainId} {outputs : List PipeId} {e : GraphError}

theorem pipeIndex_error {id : PipeId} (failed : pipeIndex id s = .error e t) :
    ¬ (id.session = s.serial ∧ id.index < s.pipes.size) ∧ t = s := by
  simp only [pipeIndex,bind_error,get_error,get_ok,choice_error,throw_error,pure_error,false_or,
    and_false,and_assoc,exists_and_left,exists_eq_left] at failed
  simpa [not_and_or] using And.intro failed.1 failed.2.2

theorem pipeIndices_error {ids : List PipeId} (failed : ids.mapM pipeIndex s = .error e t) :
    ¬ s.Owns ids ∧ t = s := by
  induction ids with
  | nil => exact (pure_error.mp failed).elim
  | cons id rest ih =>
    simp only [List.mapM_cons,bind_error,pipeIndex_ok,pure_error,or_false,and_false,exists_false,
      and_assoc,exists_and_left] at failed
    rcases failed with foreign | ⟨_,_,_,_,_,rfl,later⟩
    · obtain ⟨foreign,rfl⟩ := pipeIndex_error foreign
      exact ⟨fun owned => foreign (owned id List.mem_cons_self),rfl⟩
    · obtain ⟨foreign,rfl⟩ := ih later
      exact ⟨fun owned => foreign fun other member => owned other (List.mem_cons_of_mem _ member),rfl⟩

theorem feedAll_error {pipes : List Nat} (failed : feedAll pipes s = .error e t) :
    ∃ before p after, pipes = before ++ p :: after ∧ feedAll before s = .ok () t ∧
      (t.pipe p).fed = true ∧ e = .binding (.alreadyFed (t.pipe p).describe) := by
  induction pipes generalizing s with
  | nil => exact (pure_error.mp failed).elim
  | cons p rest ih =>
    rcases bind_error.mp failed with refused | ⟨u,v,fed,failed⟩
    · obtain ⟨refused,rfl⟩ := updatePipe_error.mp refused
      unfold Pipe.feed at refused
      split at refused
      next already => exact ⟨[],p,rest,rfl,pure_ok.mpr ⟨rfl,rfl⟩,already,(Except.error.inj refused).symm⟩
      next => cases refused
    · obtain ⟨before,q,after,rfl,done,already,why⟩ := ih failed
      exact ⟨p :: before,q,after,rfl,bind_ok.mpr ⟨u,v,fed,done⟩,already,why⟩

def Barred (s : Session) (chain : ChainId) (outputs : List PipeId) : Prop :=
  s.completed = true ∨ chain.session ≠ s.serial ∨ s.stages.size ≤ chain.index ∨
    (s.stage chain.index).operation = none ∨ (s.stage chain.index).next ≠ none ∨
    (s.stage chain.index).outputs ≠ #[] ∨ ¬ s.Owns outputs

theorem not_barred : ¬ s.Barred chain outputs ↔ s.completed = false ∧ chain.session = s.serial ∧
    chain.index < s.stages.size ∧ (s.stage chain.index).operation ≠ none ∧
    (s.stage chain.index).next = none ∧ (s.stage chain.index).outputs = #[] ∧ s.Owns outputs := by
  simp [Barred]

theorem connect_error (refused : connect chain outputs s = .error e t) :
    s.Barred chain outputs ∧ t = s ∨
      ¬ s.Barred chain outputs ∧ feedAll (outputs.map PipeId.index) s = .error e t := by
  simp only [connect,requireOpen,stageIndex,requireTail,bind_error,bind_ok,get_error,get_ok,
    choice_error,choice_ok,throw_error,throw_ok,pure_error,pure_ok,modify_error,false_or,or_false,
    and_false,false_and,exists_false,and_assoc,exists_and_left,exists_eq_left,exists_const,
    Option.isNone_iff_eq_none,Option.isSome_iff_ne_none,Bool.and_eq_true,decide_eq_true_eq,
    not_and_or,Nat.not_lt,Classical.not_not,pipeIndices_ok,true_and,Bool.not_eq_true',
    Array.isEmpty_eq_false_iff] at refused
  rcases refused with ⟨closed,_,rfl⟩ | ⟨isOpen,⟨foreign,_,rfl⟩ | ⟨own,inside,⟨empty,_,rfl⟩ |
    ⟨full,⟨linked,_,rfl⟩ | ⟨tail,⟨wired,_,rfl⟩ | ⟨bare,failed⟩⟩⟩⟩⟩
  · exact .inl ⟨.inl closed,rfl⟩
  · exact .inl ⟨.inr (foreign.imp_right .inl),rfl⟩
  · exact .inl ⟨.inr (.inr (.inr (.inl empty))),rfl⟩
  · exact .inl ⟨.inr (.inr (.inr (.inr (.inl linked)))),rfl⟩
  · exact .inl ⟨.inr (.inr (.inr (.inr (.inr (.inl wired))))),rfl⟩
  rcases failed with failed | ⟨owned,failed⟩
  · obtain ⟨foreign,rfl⟩ := pipeIndices_error failed
    exact .inl ⟨.inr (.inr (.inr (.inr (.inr (.inr foreign))))),rfl⟩
  · exact .inr ⟨not_barred.mpr ⟨by simpa using isOpen,own,inside,full,tail,bare,owned⟩,failed⟩

/-- The pipes before `p` are fed, though they are on no pad, and nothing else was done. -/
structure FeedsUpTo (s t : Session) (outputs : List PipeId) (e : GraphError)
    (before : List PipeId) (p : PipeId) (after : List PipeId) : Prop where
  list : outputs = before ++ p :: after
  fresh : (before.map PipeId.index).Nodup ∧ ∀ q ∈ before, (s.pipe q.index).fed = false
  fault : (s.pipe p.index).fed = true ∨ p.index ∈ before.map PipeId.index
  error : e = .binding (.alreadyFed (s.pipe p.index).describe)
  session : t = s.feedPipes (before.map PipeId.index)
  fed : ∀ q, (t.pipe q).fed = true ↔ (s.pipe q).fed = true ∨ q ∈ before.map PipeId.index
  /-- Of the pipes that could be put on pads before, just those can no longer be. -/
  connectable : ∀ other list, (∃ u, connect other list t = .ok () u) ↔
    (∃ u, connect other list s = .ok () u) ∧ ∀ q ∈ list, q.index ∉ before.map PipeId.index

theorem connectable_iff {other : ChainId} {list : List PipeId} :
    (∃ u, connect other list s = .ok () u) ↔ ¬ s.Barred other list ∧
      (list.map PipeId.index).Nodup ∧ ∀ p ∈ list.map PipeId.index, (s.pipe p).fed = false := by
  simp only [connect_ok,not_barred,and_assoc,exists_and_left,exists_eq,and_true]

theorem connectable_feedPipes {pipes : List Nat} (inside : ∀ p ∈ pipes, p < s.pipes.size)
    (other : ChainId) (list : List PipeId) :
    (∃ u, connect other list (s.feedPipes pipes) = .ok () u) ↔
      (∃ u, connect other list s = .ok () u) ∧ ∀ q ∈ list, q.index ∉ pipes := by
  have fed (q : Nat) : ((s.feedPipes pipes).pipe q).fed = false ↔
      (s.pipe q).fed = false ∧ q ∉ pipes := by
    rw [pipe_feedPipes]
    by_cases member : q ∈ pipes <;> simp [member,inside]
  have barred : (s.feedPipes pipes).Barred other list ↔ s.Barred other list := by
    obtain ⟨table,size,equal⟩ := feedPipes_eq s pipes
    rw [equal,Barred,Barred,Owns,Owns,size]
    rfl
  rw [connectable_iff,connectable_iff,barred]
  simp only [fed,forall_and,List.forall_mem_map,and_assoc]

theorem feedsUpTo_of_error (owned : s.Owns outputs)
    (failed : feedAll (outputs.map PipeId.index) s = .error e t) :
    ∃ before p after, FeedsUpTo s t outputs e before p after := by
  obtain ⟨_,_,_,split,done,already,why⟩ := feedAll_error failed
  obtain ⟨before,_,rfl,rfl,rest⟩ := List.map_eq_append_iff.mp split
  obtain ⟨p,after,rfl,rfl,rfl⟩ := List.map_eq_cons_iff.mp rest
  have inside : ∀ q ∈ before.map PipeId.index, q < s.pipes.size := by
    intro q member
    obtain ⟨id,present,rfl⟩ := List.mem_map.mp member
    exact (owned id (by simp [present])).2
  obtain ⟨distinct,unfed,rfl⟩ := (feedAll_ok inside).mp done
  have fed (q : Nat) : ((s.feedPipes (before.map PipeId.index)).pipe q).fed = true ↔
      (s.pipe q).fed = true ∨ q ∈ before.map PipeId.index := by
    rw [pipe_feedPipes]
    by_cases member : q ∈ before.map PipeId.index <;> simp [member,inside]
  have described : ((s.feedPipes (before.map PipeId.index)).pipe p.index).describe =
      (s.pipe p.index).describe := by
    rw [pipe_feedPipes]
    split <;> rfl
  exact ⟨before,p,after,rfl,⟨distinct,fun q member => unfed _ (List.mem_map_of_mem member)⟩,
    (fed _).mp already,by rw [why,described],rfl,fed,connectable_feedPipes inside⟩

open Account in
/-- A connection that fails puts nothing on a pad. It has done nothing at all, or the pipes before
one that cannot be fed count as fed from then on; as long as every call succeeds, no graph is
accepted with a pipe that is read and on no pad. -/
theorem connect_stops (s : Session) :
    (∀ chain outputs e t, connect chain outputs s = .error e t → (∀ i, t.stage i = s.stage i) ∧
      (s.Barred chain outputs ∧ t = s ∨ ¬ s.Barred chain outputs ∧
        ∃ before p after, FeedsUpTo s t outputs e before p after)) ∧
    ∀ catalog a exports t, Reached catalog a → a.session = s → a.Knows (.complete exports) →
      complete exports s = .ok () t → ∀ p ∈ t.inputPads ++ t.exportPads,
        (t.pipe p).shared = false → t.outputPads.count p = 1 := by
  constructor
  · intro chain outputs e t refused
    rcases connect_error refused with ⟨barred,rfl⟩ | ⟨free,failed⟩
    · exact ⟨fun _ => rfl,.inl ⟨barred,rfl⟩⟩
    · obtain ⟨before,p,after,feeds⟩ := feedsUpTo_of_error (not_barred.mp free).2.2.2.2.2.2 failed
      refine ⟨fun i => ?_,.inr ⟨free,before,p,after,feeds⟩⟩
      obtain ⟨table,_,equal⟩ := feedPipes_eq s (before.map PipeId.index)
      rw [feeds.session,equal]
      rfl
  · rintro catalog a exports t reached rfl known completed p member own
    have consistent := reached.consistent.after (c := .complete exports) known completed
    obtain ⟨_,v,_,valid,rfl⟩ := complete_ok.mp completed
    have checked := validate_ok valid
    have sound := consistent.kept.1
    have taken := taken_of_mem sound own member
    obtain ⟨i,listed⟩ := sound.feeding.feeder p ((checked.ends p own).trans taken) own
    exact List.count_eq_one_of_mem (outputPads_nodup sound) ((mem_outputPads sound).mpr ⟨i,listed⟩)

/-- Two flips of a stream, neither with an output so far, and a pipe that nothing feeds. -/
def twoFlips : List ((reply : Reply) × Call reply) :=
  [⟨_,.inputStream "0:v"⟩,⟨_,.start [⟨0,0⟩]⟩,⟨_,.extend ⟨0,0⟩ (.named "hflip")⟩,
    ⟨_,.start [⟨0,0⟩]⟩,⟨_,.extend ⟨0,1⟩ (.named "vflip")⟩,⟨_,.newPipe⟩]

def drain (pipe : PipeId) : Build String := do
  let chain ← start [pipe]
  let _ ← extend chain (.named "nullsink")
  finish []

def drainedFlip : List ((reply : Reply) × Call reply) :=
  twoFlips ++ [⟨_,.connect ⟨0,1⟩ [⟨0,1⟩]⟩,⟨_,.start [⟨0,1⟩]⟩,⟨_,.extend ⟨0,2⟩ (.named "nullsink")⟩]

open Account in
theorem connect_stops_twice : ∃ a e t, run? twoFlips (.new 0 .empty) = some a ∧
    connect ⟨0,0⟩ [⟨0,1⟩,⟨0,1⟩] a.session = .error e t ∧
    (∀ i, t.stage i = a.session.stage i) ∧
    (∃ before p after, FeedsUpTo a.session t [⟨0,1⟩,⟨0,1⟩] e before p after) ∧
    ∃ b u, run? drainedFlip (.new 0 .empty) = some b ∧ complete [] b.session = .ok () u ∧
      1 ∈ u.inputPads ∧ (u.pipe 1).shared = false ∧ u.outputPads.count 1 = 1 := by
  have runs : (run? twoFlips (.new 0 .empty)).any (fun a =>
      fails (connect ⟨0,0⟩ [⟨0,1⟩,⟨0,1⟩]) a.session (fun _ t => (t.pipe 1).fed) &&
        !(a.session.pipe 1).fed) = true := by decide +kernel
  have drains : (run? drainedFlip (.new 0 .empty)).any (fun b =>
      decide (b.Knows (.complete [])) && succeeds (complete []) b.session fun _ u =>
        decide (1 ∈ u.inputPads) && !(u.pipe 1).shared) = true := by decide +kernel
  obtain ⟨a,ran,facts⟩ := (Option.any_eq_true ..).mp runs
  simp only [Bool.and_eq_true,Bool.not_eq_true'] at facts
  obtain ⟨failing,unfed⟩ := facts
  obtain ⟨e,t,refused,fed⟩ := error_of_fails failing
  obtain ⟨b,went,drained⟩ := (Option.any_eq_true ..).mp drains
  simp only [Bool.and_eq_true,decide_eq_true_eq] at drained
  obtain ⟨known,completing⟩ := drained
  obtain ⟨_,u,completed,read⟩ := ok_of_succeeds completing
  simp only [Bool.and_eq_true,decide_eq_true_eq,Bool.not_eq_true'] at read
  obtain ⟨reads,own⟩ := read
  have once := (connect_stops b.session).2 .empty b [] u ((Reached.new 0).run went) rfl known completed 1
    (List.mem_append_left _ reads) own
  obtain ⟨stages,⟨_,rfl⟩ | ⟨_,feeds⟩⟩ := (connect_stops a.session).1 _ _ e t refused
  · simp [unfed] at fed
  · exact ⟨a,e,t,ran,refused,stages,feeds,b,u,went,completed,reads,own,once⟩

open Account in
/-- A connection that lists a pipe twice is refused and keeps the pipe from every pad: another chain
that it could have been put on refuses it, and a graph that reads it is accepted. -/
theorem connect_feeds_before : ∃ a e t, run? twoFlips (.new 0 .empty) = some a ∧
    connect ⟨0,0⟩ [⟨0,1⟩,⟨0,1⟩] a.session = .error e t ∧
    (a.session.pipe 1).fed = false ∧ (t.pipe 1).fed = true ∧
    (∃ u, connect ⟨0,1⟩ [⟨0,1⟩] a.session = .ok () u) ∧
    (∃ f u, connect ⟨0,1⟩ [⟨0,1⟩] t = .error f u) ∧
    (∃ f u, drain ⟨0,1⟩ a.session = .error f u) ∧
    ∃ u, drain ⟨0,1⟩ t = .ok "[0:v]hflip;[0:v]vflip;[_0]nullsink" u ∧
      (u.pipe 1).shared = false ∧ 1 ∈ u.inputPads ∧ 1 ∉ u.outputPads := by
  have runs : (run? twoFlips (.new 0 .empty)).any (fun a =>
      !(a.session.pipe 1).fed && succeeds (connect ⟨0,1⟩ [⟨0,1⟩]) a.session (fun _ _ => true) &&
        fails (drain ⟨0,1⟩) a.session (fun _ _ => true) &&
        fails (connect ⟨0,0⟩ [⟨0,1⟩,⟨0,1⟩]) a.session fun _ t => (t.pipe 1).fed &&
          fails (connect ⟨0,1⟩ [⟨0,1⟩]) t (fun _ _ => true) &&
          succeeds (drain ⟨0,1⟩) t fun text u => text == "[0:v]hflip;[0:v]vflip;[_0]nullsink" &&
            !(u.pipe 1).shared && decide (1 ∈ u.inputPads) && decide (1 ∉ u.outputPads)) = true := by
    decide +kernel
  obtain ⟨a,ran,facts⟩ := (Option.any_eq_true ..).mp runs
  simp only [Bool.and_eq_true,Bool.not_eq_true'] at facts
  obtain ⟨⟨⟨unfed,free⟩,loose⟩,failing⟩ := facts
  obtain ⟨_,u,connected,-⟩ := ok_of_succeeds free
  obtain ⟨f,v,dangles,-⟩ := error_of_fails loose
  obtain ⟨e,t,refused,facts⟩ := error_of_fails failing
  simp only [Bool.and_eq_true] at facts
  obtain ⟨⟨fed,barring⟩,draining⟩ := facts
  obtain ⟨g,w,barred,-⟩ := error_of_fails barring
  obtain ⟨text,x,drained,shown⟩ := ok_of_succeeds draining
  simp only [Bool.and_eq_true,beq_iff_eq,Bool.not_eq_true',decide_eq_true_eq] at shown
  obtain ⟨⟨⟨rfl,own⟩,reads⟩,unwritten⟩ := shown
  exact ⟨a,e,t,ran,refused,unfed,fed,⟨u,connected⟩,⟨g,w,barred⟩,⟨f,v,dangles⟩,x,drained,own,reads,
    unwritten⟩

end Feeding

end MediaGraph.Session
