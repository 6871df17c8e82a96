import MediaGraph.Proofs.Attempts
import MediaGraph.Proofs.Plans

/-! Callers whose calls may fail.
They name what they were given before, and go on after a failure with what they have. However far their
calls get, each reader stays on the list of the pipe that it points at. -/
namespace MediaGraph
namespace Session
open Relation

def Handed (chain : ChainId) (s : Session) : Prop := s.OuterStage chain.index

section Chains
variable {s t : Session}

theorem Grouped.outer_new (grouped : s.Grouped) (more : s.stages.size < t.stages.size)
    (splitters : ∀ p, (t.pipe p).splitter = (s.pipe p).splitter) : t.OuterStage s.stages.size :=
  ⟨more,fun made => Nat.lt_irrefl _ (grouped.made_inside ((made_congr splitters _).mp made))⟩

theorem chainId_attains {i : Nat} (outer : s.OuterStage i) : Attains Handed (chainId i) s := by
  refine ⟨.of_same rfl,fun chain t called => ?_⟩
  obtain ⟨rfl,rfl⟩ := chainId_ok.mp called
  exact outer

theorem startOn_attains {pipes : List Nat} (grouped : s.Grouped) (inside : ∀ p ∈ pipes, p < s.pipes.size) :
    Attains Handed (startOn pipes) s := by
  refine .of_get (.of_bind grouped (.of_modify (.single (.place pipes inside))) fun _ t same _ _ => ?_)
  refine chainId_attains (grouped.outer_new (by simp [same,addChain_eq]) fun p => ?_)
  rw [same,pipe_addChain s inside,note_splitter]

theorem start_attains (inputs : List PipeId) (grouped : s.Grouped) : Attains Handed (start inputs) s := by
  refine .of_guard (.of_check (leaves_pipeIndices inputs) fun pipes found => ?_)
  obtain ⟨owned,rfl,_⟩ := pipeIndices_ok.mp found
  refine startOn_attains grouped fun p member => ?_
  obtain ⟨id,given,rfl⟩ := List.mem_map.mp member
  exact (owned id given).2

theorem extend_attains {chain : ChainId} (op : Operation) (grouped : s.Grouped)
    (other : ¬ s.Made chain.index) : Attains Handed (extend chain op) s := by
  refine .of_guard (.of_check (leaves_stageIndex chain) fun i found => ?_)
  obtain ⟨_,inside,rfl,_⟩ := stageIndex_ok.mp found
  have outer : s.OuterStage chain.index := ⟨inside,other⟩
  refine .of_check (leaves_requireTail _) fun _ last => .of_get ?_
  obtain ⟨tail,_⟩ := requireTail_ok.mp last
  refine .of_branch (fun vacant => ?_) fun _ => .of_branch (fun _ => .of_throw _) fun _ => ?_
  · have held := Regroup.hold chain.index op (Option.isNone_iff_eq_none.mp vacant)
    refine .of_bind grouped (.of_modify (.single held)) fun _ t same groupedT first => ?_
    refine .of_bind groupedT (resolveAll_attains groupedT fun r member => first.free ?_)
      fun _ _ _ _ second => .of_pure (second.stage _ (first.stage _ outer))
    obtain ⟨there,owner⟩ := ((grouped.pads _).2 r).mp member
    refine ⟨there,fun j owns => ?_⟩
    obtain rfl : chain.index = j := Owner.stage.inj (owner.symm.trans owns)
    exact outer
  · refine .of_bind grouped (.of_modify (.single (.append chain.index op outer tail)))
      fun _ t same _ _ => chainId_attains ?_
    rw [same]
    exact grouped.outer_new (by simp [modifyStage,addStage,addOperation]) fun _ => rfl

theorem begin_attains (inputs : List PipeId) (op : Operation) (grouped : s.Grouped) :
    Attains Handed (do extend (← start inputs) op) s :=
  .of_bind grouped (start_attains inputs grouped) fun _ _ handed groupedT _ =>
    extend_attains op groupedT handed.2

theorem fork_attains (chain : ChainId) (count : Nat) (grouped : s.Grouped) :
    Attains Handed (fork chain count) s := by
  refine .of_guard (.of_check (leaves_stageIndex chain) fun i _ => ?_)
  refine .of_check (leaves_requireTail i) fun _ _ => .of_get (.of_branch (fun _ => ?_) fun _ => ?_)
  · refine .of_branch (fun _ => .of_raise) fun _ => startOn_attains grouped fun p member => ?_
    obtain ⟨r,listed,rfl⟩ := List.mem_map.mp (List.mem_of_mem_take member)
    exact grouped.inside r (((grouped.pads i).2 r).mp listed).1
  · exact .of_bind grouped (.of_does (.of_takeOutputs outputAt_regroups ..)) fun outputs _ _ groupedT _ =>
      start_attains outputs groupedT

theorem place_attains (inputs : List PipeId) (op : Operation) (grouped : s.Grouped) :
    Attains Handed (place inputs op) s := by
  refine .of_guard (.of_get ?_)
  split
  · exact .of_bind grouped (.of_does (.of_markInputs mark_regroups ..)) fun _ _ _ groupedT _ =>
      begin_attains inputs op groupedT
  · exact begin_attains inputs op grouped

theorem apply_attains (name : String) (inputs : List PipeId) (args : List Argument)
    (grouped : s.Grouped) : Attains Handed (apply name inputs args) s :=
  .of_guard (.of_check (leaves_filter name) fun _ _ => place_attains inputs _ grouped)

theorem splitChain_attains (id : PipeId) (count : Nat) (grouped : s.Grouped) :
    Attains Handed (splitChain id count) s :=
  .of_guard (.of_get (.of_check (leaves_pipeIndex id) fun _ _ =>
    .of_check (leaves_helper _ _) fun _ _ => begin_attains [id] _ grouped))

theorem discard_attains (id : PipeId) (grouped : s.Grouped) : Attains Handed (discard id) s :=
  .of_guard (.of_get (.of_check (leaves_pipeIndex id) fun _ _ =>
    .of_check (leaves_helper _ _) fun _ _ => begin_attains [id] _ grouped))

/-- Nothing stands behind a split, so no chain begins with one but its own. -/
theorem Grouped.outer_head (grouped : s.Grouped) {i : Nat} (outer : s.OuterStage i) :
    s.OuterStage (s.head i) := by
  suffices climbs : ∀ fuel i, s.OuterStage i → s.OuterStage (s.headWithin fuel i) from climbs _ i outer
  intro fuel
  induction fuel with
  | zero => exact fun _ outer => outer
  | succ fuel ih =>
    intro i outer
    rw [headWithin]
    split
    next before prev =>
      have next := grouped.linked before i prev
      refine ih before ⟨getD_bound s.stages .empty before fun same => ?_,fun made => ?_⟩
      · rw [Session.stage,same] at next
        cases next
      · obtain ⟨_,fans⟩ := grouped.made_fans made
        rw [fans.alone.2] at next
        cases next
    next => exact outer

theorem mem_sequence (s : Session) (i : Nat) : i ∈ s.sequence i := by
  unfold sequence
  cases s.stages.size with
  | zero => simp [sequenceWithin]
  | succ fuel =>
    rw [sequenceWithin]
    split <;> simp

theorem link_regroups {source target : ChainId} (grouped : s.Grouped) (otherA : ¬ s.Made source.index)
    (otherB : ¬ s.Made target.index) : Does Regroup (link source target) s := by
  refine .of_guard fun _ => .of_check (leaves_stageIndex source) fun a foundA => ?_
  refine .of_check (leaves_stageIndex target) fun b foundB => .of_get ?_
  refine .of_branch (fun _ => .of_raise) fun _ => .of_check (leaves_requireTail a) fun _ last => ?_
  refine .of_branch (fun _ => .of_raise) fun _ => .of_branch (fun _ => .of_raise) fun apart => ?_
  obtain ⟨_,insideA,rfl,_⟩ := stageIndex_ok.mp foundA
  obtain ⟨_,insideB,rfl,_⟩ := stageIndex_ok.mp foundB
  obtain ⟨tail,_⟩ := requireTail_ok.mp last
  refine .of_modify (.single (.splice source.index _ ⟨insideA,otherA⟩
    (grouped.outer_head ⟨insideB,otherB⟩) (fun same => apart ?_) tail))
  rw [List.contains_iff_mem]
  exact same ▸ mem_sequence s _

end Chains

/-! Other calls. -/

section Calls
variable {s : Session}

theorem feedAll_regroups {pipes : List Nat} : Does Regroup (feedAll pipes) s := by
  induction pipes generalizing s with
  | nil => exact .of_pure _
  | cons p rest ih => exact .of_bind feed_regroups fun _ _ _ => ih

theorem connect_regroups {chain : ChainId} {outputs : List PipeId} :
    Does Regroup (connect chain outputs) s := by
  refine .of_guard fun _ => .of_check (leaves_stageIndex chain) fun i _ => .of_get ?_
  refine .of_branch (fun _ => .of_raise) fun _ => .of_check (leaves_requireTail i) fun _ _ => ?_
  refine .of_branch (fun _ => .of_raise) fun _ => ?_
  refine .of_check (leaves_pipeIndices outputs) fun pipes found => ?_
  obtain ⟨owned,rfl,_⟩ := pipeIndices_ok.mp found
  refine .of_bind feedAll_regroups fun _ t fed => .of_modify (.single (.still (.of_outputs i ?_)))
  intro p member
  obtain ⟨id,given,rfl⟩ := List.mem_map.mp (List.mem_toArray.mp member)
  exact .inr (Nat.lt_of_lt_of_le (owned id given).2 (endures_of_regroups (feedAll_regroups.ok fed)).pipes)

theorem inputStream_regroups {spec : String} : Does Regroup (inputStream spec) s := by
  refine .of_guard fun _ => .of_get ?_
  split
  next => exact .of_same rfl
  next => exact .of_change (.still (.of_push rfl rfl rfl rfl ⟨rfl,rfl⟩)) (.of_same rfl)

theorem passThrough_attains {p : Nat} (grouped : s.Grouped) :
    Attains (fun out t => out < t.pipes.size) (passThrough p) s := by
  refine .of_get (.of_check (leaves_helper _ _) fun name _ => .of_check rfl fun id _ => ?_)
  refine .of_bind grouped (start_attains [id] grouped) fun chain _ handed groupedT _ => ?_
  refine .of_bind groupedT (extend_attains (.named name) groupedT handed.2) fun next _ _ groupedU _ => ?_
  refine .of_bind groupedU (output_attains groupedU next 0) fun out _ inside groupedV _ => .of_get ?_
  exact .of_bind groupedV (.of_does (mark_regroups ..)) fun _ _ _ _ later =>
    .of_pure (Nat.lt_of_lt_of_le inside later.pipes)

theorem exportTarget_attains {name : String} {p : Nat} (grouped : s.Grouped) (inside : p < s.pipes.size) :
    Attains (fun target t => target < t.pipes.size) (exportTarget name p) s := by
  refine .of_get (.of_branch (fun _ => .of_pure inside) fun _ => .of_branch (fun _ => ?_) fun _ => ?_)
  · refine .of_bind grouped (passThrough_attains grouped) fun out t there groupedT _ => ?_
    exact .of_bind groupedT (.of_does renameAt_regroups) fun _ _ _ _ later =>
      .of_pure (Nat.lt_of_lt_of_le there later.pipes)
  · exact .of_bind grouped (.of_does renameAt_regroups) fun _ _ _ _ later =>
      .of_pure (Nat.lt_of_lt_of_le inside later.pipes)

theorem exportPipe_attains {name : String} {id : PipeId} (grouped : s.Grouped) :
    Attains (fun _ _ => True) (exportPipe name id) s := by
  refine .of_check (leaves_pipeIndex id) fun p found => ?_
  obtain ⟨_,inside,rfl,_⟩ := pipeIndex_ok.mp found
  refine .of_bind grouped (exportTarget_attains grouped inside) fun target t there groupedT _ => .of_get ?_
  refine .of_bind groupedT (.of_modify (.single (.leave target there))) fun _ u same groupedU _ => ?_
  refine resolve_attains groupedU ⟨?_,fun i owner => ?_⟩
  · simp [same,addReader_eq]
  · rw [same,reader_addReader,if_pos rfl] at owner
    cases owner

theorem exportAll_attains {exports : List (String × PipeId)} (grouped : s.Grouped) :
    Attains (fun _ _ => True) (exportAll exports) s := by
  induction exports generalizing s with
  | nil => exact .of_pure trivial
  | cons entry rest ih => exact .of_bind grouped (exportPipe_attains grouped) fun _ _ _ groupedT _ => ih groupedT

theorem complete_regroups {exports : List (String × PipeId)} (grouped : s.Grouped) :
    Does Regroup (complete exports) s := by
  refine .of_guard fun _ => .of_bind (exportAll_attains grouped).does fun _ t _ => .of_get ?_
  split
  · exact .of_modify (.single (.still (.of_same rfl rfl rfl rfl)))
  · exact .of_throw _

def Gives (reply : Reply) (answer : reply.Value) (s : Session) : Prop :=
  ∀ chain ∈ reply.givenChains answer, Handed chain s

theorem Attains.of_none {reply : Reply} {x : Build reply.Value} (does : Does Regroup x s)
    (none : ∀ answer, reply.givenChains answer = []) : Attains (Gives reply) x s :=
  ⟨does,fun answer _ _ _ member => by simp [none] at member⟩

theorem Attains.of_handed {x : Build ChainId} (attains : Attains Handed x s) : Attains (Gives .chain) x s :=
  attains.mono fun _ _ _ handed _ member => List.mem_singleton.mp member ▸ handed

theorem perform_attains {reply : Reply} (c : Call reply) (grouped : s.Grouped)
    (other : ∀ chain ∈ c.chains, ¬ s.Made chain.index) : Attains (Gives reply) (perform c) s := by
  cases c with
  | newPipe =>
    refine Attains.of_none (.of_guard fun _ => .of_get (.of_change ?_ (.of_same rfl))) fun _ => rfl
    exact .still (.of_push rfl rfl rfl rfl ⟨rfl,rfl⟩)
  | namedPipe name =>
    refine Attains.of_none (.of_guard fun _ => .of_get (.of_change ?_ (.of_same rfl))) fun _ => rfl
    exact .still (.of_push rfl rfl rfl rfl ⟨rfl,rfl⟩)
  | inputStream spec => exact .of_none inputStream_regroups fun _ => rfl
  | setMedia id media => exact .of_none (.of_setMedia mark_regroups ..) fun _ => rfl
  | rename id name =>
    refine Attains.of_none (.of_guard fun _ => .of_check (leaves_pipeIndex id) fun _ _ => ?_) fun _ => rfl
    exact renameAt_regroups
  | setHint id hint =>
    refine Attains.of_none (.of_check (leaves_pipeIndex id) fun i _ => .of_modify ?_) fun _ => rfl
    exact .single (.still (.of_pipe i rfl))
  | lookUp id => exact .of_none (.of_same (leaves_lookUp id)) fun _ => rfl
  | countReaders id =>
    exact .of_none (.of_same (leaves_check (leaves_lookUp id) fun _ _ => rfl)) fun _ => rfl
  | start inputs => exact .of_handed (start_attains inputs grouped)
  | extend target op =>
    exact .of_handed (extend_attains op grouped (other target (by simp [Call.chains])))
  | connect target outputs => exact .of_none connect_regroups fun _ => rfl
  | fork target count => exact .of_handed (fork_attains target count grouped)
  | output target index => exact .of_none (.of_output outputAt_regroups ..) fun _ => rfl
  | takeOutputs target count => exact .of_none (.of_takeOutputs outputAt_regroups ..) fun _ => rfl
  | iterate target limit => exact .of_none (.of_iterate outputAt_regroups ..) fun _ => rfl
  | link source target =>
    exact .of_none (link_regroups grouped (other source (by simp [Call.chains]))
      (other target (by simp [Call.chains]))) fun _ => rfl
  | operationOf target =>
    exact .of_none (.of_same (leaves_check (leaves_stageIndex target) fun _ _ => rfl)) fun _ => rfl
  | lookUpOperation op =>
    refine Attains.of_none (.of_same (leaves_check rfl fun t _ => ?_)) fun _ => rfl
    cases t.operationFor op <;> rfl
  | setArguments op args =>
    refine Attains.of_none (.of_guard fun _ => .of_check (leaves_operationIndex op) fun _ _ => ?_) fun _ => rfl
    exact .of_modify (.single (.still (.of_arguments ..)))
  | filter name => exact .of_none (.of_same (leaves_filter name)) fun _ => rfl
  | apply name inputs args => exact .of_handed (apply_attains name inputs args grouped)
  | place inputs op => exact .of_handed (place_attains inputs op grouped)
  | split id count =>
    refine Attains.of_none (.of_bind (splitChain_attains id count grouped).does fun _ _ _ => ?_) fun _ => rfl
    exact .of_takeOutputs outputAt_regroups ..
  | splitChain id count => exact .of_handed (splitChain_attains id count grouped)
  | discard id => exact .of_handed (discard_attains id grouped)
  | complete exports => exact .of_none (complete_regroups grouped) fun _ => rfl

end Calls
end Session

/-- A caller with the handles that it was given, whatever became of its calls. -/
structure Holder where
  session : Session
  pipes : List PipeId
  chains : List ChainId
  operations : List OperationId

namespace Holder
open Session

def new (serial : Nat) (catalog : Catalog) : Holder := ⟨.new serial catalog,[],[],[]⟩

def Knows {reply : Reply} (h : Holder) (c : Call reply) : Prop :=
  (∀ id ∈ c.pipes, id ∈ h.pipes) ∧ (∀ id ∈ c.chains, id ∈ h.chains) ∧
    ∀ id ∈ c.operations, id ∈ h.operations

instance {reply : Reply} (h : Holder) (c : Call reply) : Decidable (h.Knows c) :=
  inferInstanceAs (Decidable (_ ∧ _ ∧ _))

/-- A call that fails gives nothing away, and what it did stays done. -/
def after {reply : Reply} (h : Holder) (c : Call reply) : Holder :=
  match perform c h.session with
  | .ok answer t =>
    { session := t
      pipes := h.pipes ++ reply.givenPipes answer
      chains := h.chains ++ reply.givenChains answer
      operations := h.operations ++ reply.givenOperations answer }
  | .error _ t => { h with session := t }

/-- Callers that have named only what they were given before, in calls that may have failed. Entry points
and concatenations are made of such calls. -/
inductive Tried (catalog : Catalog) : Holder → Prop
  | new (serial) : Tried catalog (.new serial catalog)
  | call {h reply} (c : Call reply) (before : Tried catalog h) (known : h.Knows c) :
      Tried catalog (h.after c)

def attempt? : List ((reply : Reply) × Call reply) → Holder → Option Holder
  | [], h => some h
  | ⟨_,c⟩ :: rest, h => if h.Knows c then attempt? rest (h.after c) else none

structure Orderly (h : Holder) : Prop where
  grouped : h.session.Grouped
  handed : ∀ chain ∈ h.chains, Handed chain h.session

section Runs
variable {catalog : Catalog} {h k : Holder}

theorem after_ok {reply : Reply} {c : Call reply} {answer : reply.Value} {t : Session}
    (called : perform c h.session = .ok answer t) :
    h.after c = ⟨t,h.pipes ++ reply.givenPipes answer,h.chains ++ reply.givenChains answer,
      h.operations ++ reply.givenOperations answer⟩ := by rw [after,called]

theorem after_error {reply : Reply} {c : Call reply} {e : GraphError} {t : Session}
    (failed : perform c h.session = .error e t) : h.after c = { h with session := t } := by
  rw [after,failed]

theorem session_after {reply : Reply} (h : Holder) (c : Call reply) :
    (h.after c).session = leaves (perform c) h.session := by
  cases called : perform c h.session with
  | ok answer t => rw [after_ok called,leaves_ok called]
  | error e t => rw [after_error called,leaves_error called]

theorem Orderly.after {reply : Reply} (orderly : h.Orderly) {c : Call reply} (known : h.Knows c) :
    (h.after c).Orderly := by
  have attains := perform_attains c orderly.grouped fun chain named =>
    (orderly.handed chain (known.2.1 chain named)).2
  have endures := endures_of_regroups attains.does
  have stays (chain : ChainId) (member : chain ∈ h.chains) : Handed chain (leaves (perform c) h.session) :=
    endures.stage _ (orderly.handed chain member)
  constructor
  case grouped => exact session_after h c ▸ orderly.grouped.steps attains.does
  case handed =>
    intro chain member
    rw [session_after]
    cases called : perform c h.session with
    | ok answer t =>
      rw [after_ok called] at member
      refine (List.mem_append.mp member).elim (stays chain) fun new => ?_
      exact leaves_ok called ▸ attains.good answer t called chain new
    | error e t =>
      rw [after_error called] at member
      exact stays chain member

theorem Tried.orderly (tried : Tried catalog h) : h.Orderly := by
  induction tried with
  | new serial => exact ⟨.of_new serial catalog,by simp [Holder.new]⟩
  | call c _ known ih => exact ih.after known

theorem Tried.attempt {calls : List ((reply : Reply) × Call reply)} (tried : Tried catalog h)
    (went : attempt? calls h = some k) : Tried catalog k := by
  induction calls generalizing h with
  | nil => exact Option.some.inj went ▸ tried
  | cons call rest ih =>
    unfold attempt? at went
    split at went
    next known => exact ih (tried.call call.2 known) went
    next => cases went

end Runs

/-! Programs that are made of calls. -/

structure Extends (h k : Holder) : Prop where
  pipes : h.pipes ⊆ k.pipes
  chains : h.chains ⊆ k.chains
  operations : h.operations ⊆ k.operations

/-- A program leaves its session as calls do, whether it gets to its end or not, and if it does, what it
answers is good. -/
def Composed {α : Type} (catalog : Catalog) (good : α → Holder → Prop) (x : Build α) (h : Holder) : Prop :=
  ∃ k, Tried catalog k ∧ Extends h k ∧ k.session = leaves x h.session ∧
    ∀ a t, x h.session = .ok a t → good a k

section Programs
variable {α β : Type} {fine : α → Holder → Prop} {good : β → Holder → Prop} {catalog : Catalog}
  {h k : Holder}

theorem Extends.refl (h : Holder) : Extends h h :=
  ⟨List.Subset.refl _,List.Subset.refl _,List.Subset.refl _⟩

theorem Extends.trans {l : Holder} (first : Extends h k) (second : Extends k l) : Extends h l where
  pipes := List.Subset.trans first.pipes second.pipes
  chains := List.Subset.trans first.chains second.chains
  operations := List.Subset.trans first.operations second.operations

theorem Extends.after {reply : Reply} (h : Holder) (c : Call reply) : Extends h (h.after c) := by
  cases called : perform c h.session with
  | ok answer t =>
    rw [after_ok called]
    exact ⟨List.subset_append_left ..,List.subset_append_left ..,List.subset_append_left ..⟩
  | error e t =>
    rw [after_error called]
    exact ⟨List.Subset.refl _,List.Subset.refl _,List.Subset.refl _⟩

theorem knows_of_pipes {reply : Reply} {c : Call reply} (known : c.pipes ⊆ h.pipes)
    (chains : c.chains = []) (operations : c.operations = []) : h.Knows c :=
  ⟨fun _ member => known member,by simp [chains],by simp [operations]⟩

theorem knows_of_chain {reply : Reply} {c : Call reply} {chain : ChainId} (known : chain ∈ h.chains)
    (chains : c.chains = [chain]) (pipes : c.pipes = []) (operations : c.operations = []) : h.Knows c :=
  ⟨by simp [pipes],fun _ member => List.mem_singleton.mp (chains ▸ member) ▸ known,by simp [operations]⟩

namespace Composed

theorem of_pure {b : β} (tried : Tried catalog h) (holds : good b h) : Composed catalog good (pure b) h := by
  refine ⟨h,tried,.refl h,rfl,fun a t called => ?_⟩
  obtain ⟨rfl,_⟩ := pure_ok.mp called
  exact holds

theorem of_throw (tried : Tried catalog h) (e : GraphError) : Composed catalog good (throw e) h :=
  ⟨h,tried,.refl h,rfl,fun _ _ called => (throw_ok.mp called).elim⟩

theorem of_same {x : Build β} (tried : Tried catalog h) (same : leaves x h.session = h.session) :
    Composed catalog (fun b k => h = k ∧ x h.session = .ok b h.session) x h := by
  refine ⟨h,tried,.refl h,same.symm,fun b t called => ⟨rfl,?_⟩⟩
  obtain rfl : t = h.session := (leaves_ok called).symm.trans same
  exact called

theorem of_raise {e : GraphError} {f : α → Build β} (tried : Tried catalog h) :
    Composed catalog good ((throw e : Build α) >>= f) h := by
  refine ⟨h,tried,.refl h,rfl,fun _ _ called => ?_⟩
  obtain ⟨_,_,raised,_⟩ := bind_ok.mp called
  exact (throw_ok.mp raised).elim

theorem of_call {reply : Reply} {c : Call reply} (tried : Tried catalog h) (known : h.Knows c) :
    Composed catalog (fun answer k =>
      reply.givenPipes answer ⊆ k.pipes ∧ reply.givenChains answer ⊆ k.chains) (perform c) h := by
  refine ⟨h.after c,tried.call c known,.after h c,session_after h c,fun answer t called => ?_⟩
  rw [after_ok called]
  exact ⟨List.subset_append_right ..,List.subset_append_right ..⟩

theorem of_begin {c : Call .chain} (tried : Tried catalog h) (known : h.Knows c) :
    Composed catalog (fun chain k => chain ∈ k.chains) (perform c) h := by
  obtain ⟨k,triedK,later,same,given⟩ := of_call tried known
  exact ⟨k,triedK,later,same,fun chain t called =>
    (given chain t called).2 (List.mem_singleton.mpr rfl)⟩

theorem of_bind {x : Build α} {f : α → Build β} (first : Composed catalog fine x h)
    (next : ∀ a k, Tried catalog k → Extends h k → fine a k → Composed catalog good (f a) k) :
    Composed catalog good (x >>= f) h := by
  obtain ⟨k,tried,later,same,answers⟩ := first
  cases called : x h.session with
  | ok a t =>
    obtain rfl : k.session = t := same.trans (leaves_ok called)
    obtain ⟨l,triedL,more,left,good⟩ := next a k tried later (answers a _ called)
    refine ⟨l,triedL,later.trans more,left.trans (leaves_bind called).symm,fun b u done => good b u ?_⟩
    obtain ⟨_,_,began,rest⟩ := bind_ok.mp done
    rw [called] at began
    cases began
    exact rest
  | error e t =>
    refine ⟨k,tried,later,?_,fun b u done => ?_⟩
    · rw [leaves_bind_error called,same,leaves_error called]
    · obtain ⟨_,_,began,_⟩ := bind_ok.mp done
      rw [called] at began
      cases began

end Composed

/-! Concatenations. -/

theorem markAll_composed {media : Media} {ids : List PipeId} (tried : Tried catalog h)
    (known : ids ⊆ h.pipes) : Composed catalog (fun _ _ => True) (Concat.markAll media ids) h := by
  induction ids generalizing h with
  | nil => exact .of_pure tried trivial
  | cons id rest ih =>
    have knows : h.Knows (.setMedia id media) :=
      knows_of_pipes (by simpa [Call.pipes] using known (List.mem_cons_self ..)) rfl rfl
    exact .of_bind (.of_call tried knows) fun _ _ triedK later _ =>
      ih triedK (List.Subset.trans (List.subset_of_cons_subset known) later.pipes)

theorem markStream_composed {ids : List PipeId} (tried : Tried catalog h) (known : ids ⊆ h.pipes) :
    Composed catalog (fun _ _ => True) (Concat.markStream ids) h := by
  refine .of_bind (.of_same tried (leaves_firstMedia ids)) ?_
  rintro media _ triedK _ ⟨rfl,_⟩
  have marked (kind : Media) :
      Composed catalog (fun _ _ => True) (do Concat.markAll kind ids; return kind) h :=
    .of_bind (markAll_composed tried known) fun _ _ triedK _ _ => .of_pure triedK trivial
  cases media with
  | unknown => exact .of_bind (.of_same tried rfl) fun _ _ triedK _ _ => .of_throw triedK _
  | video => exact marked .video
  | audio => exact marked .audio
  | _ => exact .of_throw tried _

theorem markStreams_composed {streams : List (List PipeId)} (tried : Tried catalog h)
    (known : streams.flatten ⊆ h.pipes) :
    Composed catalog (fun _ _ => True) (Concat.markStreams streams) h := by
  induction streams generalizing h with
  | nil => exact .of_pure tried trivial
  | cons stream rest ih =>
    rw [List.flatten_cons] at known
    obtain ⟨here,others⟩ := List.append_subset.mp known
    refine .of_bind (markStream_composed tried here) fun _ _ triedK later _ => ?_
    exact .of_bind (ih triedK (List.Subset.trans others later.pipes)) fun _ _ triedL _ _ =>
      .of_pure triedL trivial

/-- A concatenation of pipes that were given away is made of calls, and answers with pipes that are
given away. -/
theorem finalize_composed {c : Concat} (tried : Tried catalog h) (known : c.streams.flatten ⊆ h.pipes)
    (answered : c.outputs.getD [] ⊆ h.pipes) :
    Composed catalog (fun answer k => answer.2 ⊆ k.pipes) c.finalize h := by
  unfold Concat.finalize
  split
  next outputs already =>
    rw [already] at answered
    exact .of_pure tried answered
  split
  · exact .of_raise tried
  refine .of_bind (markStreams_composed tried known) fun media h₁ tried₁ later₁ _ => ?_
  have starts : h₁.Knows (.start (c.inputs (Concat.padOrder media))) :=
    knows_of_pipes (List.Subset.trans (Account.inputs_subset c _)
      (List.Subset.trans known later₁.pipes)) rfl rfl
  refine .of_bind (.of_begin tried₁ starts) fun chain h₂ tried₂ _ given => ?_
  have grows : h₂.Knows (.extend chain (Concat.operation c.segmentCount media (Concat.padOrder media))) :=
    knows_of_chain given rfl rfl rfl
  refine .of_bind (.of_begin tried₂ grows) fun next h₃ tried₃ _ given => ?_
  have takes : h₃.Knows (.takeOutputs next (Concat.padOrder media).length) :=
    knows_of_chain given rfl rfl rfl
  refine .of_bind (.of_call tried₃ takes) fun pads h₄ tried₄ _ given =>
    .of_pure tried₄ fun id member => ?_
  obtain ⟨_,_,found⟩ := List.mem_filterMap.mp member
  exact given.1 (List.mem_of_getElem? found)

/-! Plans. -/

def outcome {α : Type} (x : Build α) (s : Session) : Except GraphError α :=
  match x s with
  | .ok a _ => .ok a
  | .error e _ => .error e

inductive Heeds : Holder → Plan → Prop
  | finish {h result} (known : ∀ chain, result = .ok chain → chain ∈ h.chains) : Heeds h (.finish result)
  | call {h reply} (c : Call reply) (next) (known : h.Knows c)
      (rest : Heeds (h.after c) (next (outcome (perform c) h.session))) : Heeds h (.call c next)

theorem caught_eq {x : Build α} {s : Session} :
    (tryCatch (Except.ok <$> x) fun e => return .error e : Build _) s = .ok (outcome x s) (leaves x s) := by
  rw [caught_ok]
  cases called : x s with
  | ok a t => exact .inl ⟨a,by rw [leaves_ok called],by rw [outcome,called]⟩
  | error e t => exact .inr ⟨e,by rw [leaves_error called],by rw [outcome,called]⟩

theorem follow_composed {plan : Plan} (tried : Tried catalog h) (heeds : Heeds h plan) :
    Composed catalog (fun chain k => chain ∈ k.chains) (follow plan) h := by
  induction heeds with
  | @finish h result known =>
    cases result with
    | ok chain => exact .of_pure tried (known chain rfl)
    | error e => exact .of_throw tried e
  | @call h reply c next known rest ih =>
    have caught : Composed catalog (fun answer k => answer = outcome (perform c) h.session ∧ h.after c = k)
        (tryCatch (Except.ok <$> perform c) fun e => return .error e) h := by
      refine ⟨h.after c,tried.call c known,.after h c,?_,fun answer t called => ?_⟩
      · rw [session_after,leaves_ok caught_eq]
      · rw [caught_eq] at called
        cases called
        exact ⟨rfl,rfl⟩
    refine .of_bind caught ?_
    rintro _ _ triedK _ ⟨rfl,rfl⟩
    exact ih triedK

theorem invoke_composed {name : String} {inputs : List PipeId} {args : List Argument}
    (tried : Tried catalog h) (known : inputs ⊆ h.pipes)
    (heeds : ∀ entry, h.session.catalog.entry? name = some entry → Heeds h (entry inputs args)) :
    Composed catalog (fun chain k => chain ∈ k.chains) (invoke name inputs args) h := by
  refine .of_bind (.of_same tried (leaves_requireOpen _)) ?_
  rintro _ _ _ _ ⟨rfl,_⟩
  refine .of_bind (.of_same tried rfl) ?_
  rintro s _ _ _ ⟨rfl,got⟩
  obtain ⟨rfl,_⟩ := get_ok.mp got
  split
  next entry found => exact follow_composed tried (heeds entry found)
  next => exact .of_begin tried (c := .apply name inputs args) (knows_of_pipes known rfl rfl)

end Programs

end Holder
end MediaGraph
