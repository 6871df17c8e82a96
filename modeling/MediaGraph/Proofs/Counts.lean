import MediaGraph.Proofs.Acyclic
import MediaGraph.Proofs.Iterations

/-! Requests for a number of outputs.
A counted request is a row of requests for one output each, so it meets the limit that is meant for
requests without a count. Up to the limit it gives as many pipes as were asked for, no two the same,
and beyond it the limit ends it. -/
namespace MediaGraph
namespace Session
open Relation

/-- The pads of a stage carry pipes that are there, and no pipe twice. -/
structure Spread (s : Session) : Prop where
  distinct : ∀ i, (s.stage i).outputs.toList.Nodup
  inside : ∀ i, ∀ p ∈ (s.stage i).outputs, p < s.pipes.size

section Spreading
variable {s t : Session}

theorem Spread.new (serial : Nat) (catalog : Catalog) : Spread (.new serial catalog) := by
  constructor <;> simp [Session.new,stage,Stage.empty]

theorem Spread.of_outputs (spread : Spread s)
    (outputs : ∀ i, (t.stage i).outputs = (s.stage i).outputs ∨ (t.stage i).outputs = #[])
    (pipes : s.pipes.size ≤ t.pipes.size) : Spread t where
  distinct i := by
    rcases outputs i with same | bare
    · exact same ▸ spread.distinct i
    · simp [bare]
  inside i p member := by
    rcases outputs i with same | bare
    · exact Nat.lt_of_lt_of_le (spread.inside i p (same ▸ member)) pipes
    · simp [bare] at member

theorem Spread.of_stages (spread : Spread s) (stages : t.stages = s.stages)
    (pipes : s.pipes.size ≤ t.pipes.size) : Spread t :=
  spread.of_outputs (fun i => .inl (by rw [stage,stages]; rfl)) pipes

theorem Spread.of_connect (spread : Spread s) {i : Nat} {pipes : Array Nat}
    (distinct : pipes.toList.Nodup) (inside : ∀ p ∈ pipes, p < s.pipes.size) :
    Spread (s.modifyStage i fun stage => { stage with outputs := pipes }) := by
  constructor
  case distinct =>
    intro j
    rw [stage,modifyStage,getD_modify]
    split
    · exact distinct
    · exact spread.distinct j
  case inside =>
    intro j p member
    rw [stage,modifyStage,getD_modify] at member
    split at member
    · exact inside p member
    · exact spread.inside j p member

theorem Spread.of_output (spread : Spread s) {i : Nat} {op : Operation} (bound : i < s.stages.size) :
    Spread (s.addOutput i op) := by
  have size : (s.addOutput i op).pipes.size = s.pipes.size + 1 := Array.size_push ..
  constructor
  case distinct =>
    intro j
    rw [stage_addOutput s i op j bound]
    split
    · rw [Array.toList_push]
      refine List.nodup_append.mpr ⟨spread.distinct j,List.nodup_singleton _,fun p old q new same => ?_⟩
      have before := spread.inside j p (Array.mem_toList_iff.mp old)
      rw [List.mem_singleton.mp new] at same
      exact Nat.lt_irrefl _ (same ▸ before)
    · exact spread.distinct j
  case inside =>
    intro j p member
    rw [stage_addOutput s i op j bound] at member
    rw [size]
    split at member
    · rcases Array.mem_push.mp member with old | rfl
      · exact Nat.lt_succ_of_lt (spread.inside j p old)
      · exact Nat.lt_succ_self _
    · exact Nat.lt_succ_of_lt (spread.inside j p member)

theorem Growth.spread (growth : Growth s t) (spread : Spread s) : Spread t := by
  have pipes := growth.onward.supplied.size
  cases growth with
  | paint frozen => exact spread.of_stages (by rw [frozen.rest]) pipes
  | tables _ kept => exact spread.of_stages kept.stages pipes
  | place list =>
    refine spread.of_outputs (fun i => ?_) pipes
    rw [stage_addChain]
    split
    · exact .inr rfl
    · exact .inl rfl
  | hold i op =>
    refine spread.of_outputs (fun j => .inl ?_) pipes
    rw [stage_hold]
    split <;> rfl
  | append i op _ holds =>
    refine spread.of_outputs (fun j => ?_) pipes
    rw [stage_append s i op j (inside_of_holds holds)]
    split
    · exact .inr rfl
    · split <;> exact .inl rfl
  | connect i list _ _ _ _ distinct inside => exact spread.of_connect distinct inside
  | output i op _ holds => exact spread.of_output (holds_inside holds)
  | attach p name =>
    refine spread.of_outputs (fun i => ?_) pipes
    rw [stage_attach]
    split
    · exact .inr rfl
    · exact .inl rfl

theorem Change.spread (change : Change s t) (spread : Spread s) : Spread t := by
  cases change with
  | growth growth => exact growth.spread spread
  | pipe _ stages _ _ _ pipes => exact spread.of_stages stages pipes
  | splice a b =>
    refine spread.of_outputs (fun i => .inl ?_) (Nat.le_refl _)
    simp only [Session.splice,stage]
    rw [getD_modify,getD_modify]
    split <;> split <;> rfl
  | close => exact spread.of_stages rfl (Nat.le_refl _)

theorem spread_of_changes (changes : ReflTransGen Change s t) (spread : Spread s) : Spread t := by
  induction changes with
  | refl => exact spread
  | tail _ change ih => exact change.spread ih

theorem spread_of_growth (grown : ReflTransGen Growth s t) (spread : Spread s) : Spread t :=
  spread_of_changes (ReflTransGen.mono (fun _ _ => Change.growth) _ _ grown) spread

end Spreading

/-- A request is served if it asks for no more than there may be, and ends at the limit if not. -/
def ServedUpTo (limit : Nat) (place : String) (request : Build (List PipeId)) (s : Session)
    (count : Nat) (fit : Pipe → Prop) : Prop :=
  (count ≤ limit → ∃ pipes t, request s = .ok pipes t ∧ pipes.length = count ∧ pipes.Nodup ∧
    t.Owns pipes ∧ ∀ id ∈ pipes, fit (t.pipe id.index)) ∧
  (limit < count → ∃ t, request s = .error (.unboundedIteration place) t)

structure Offers (chain : ChainId) (op : Operation) (s : Session) : Prop where
  isOpen : s.completed = false
  own : chain.session = s.serial
  held : s.operationAt chain.index = some op
  tail : (s.stage chain.index).next = none

/-- How many outputs a stage has or may come to have. -/
def reach (s : Session) (i : Nat) (op : Operation) : Nat :=
  max (s.stage i).outputs.size op.outputs.room

section Requests
variable {s t : Session} {chain : ChainId} {op : Operation} {n count : Nat}

theorem Offers.output (offers : Offers chain op s) (next : n ≤ (s.stage chain.index).outputs.size)
    (more : n < s.reach chain.index op) :
    ∃ id t, output chain n s = .ok id t ∧ Offers chain op t ∧
      n + 1 ≤ (t.stage chain.index).outputs.size ∧ t.reach chain.index op = s.reach chain.index op ∧
      t.describe chain.index = s.describe chain.index := by
  obtain ⟨isOpen,own,held,tail⟩ := offers
  have inside := holds_inside held
  rcases Nat.lt_or_eq_of_le next with there | rfl
  · obtain ⟨p,found⟩ : ∃ p, (s.stage chain.index).outputs[n]? = some p :=
      ⟨_,Array.getElem?_eq_getElem there⟩
    have same := outputAt_ok.mpr (.inr ⟨op,held,.inl ⟨p,found,rfl,rfl⟩⟩)
    exact ⟨_,s,output_ok.mpr ⟨own,inside,p,same,rfl⟩,⟨isOpen,own,held,tail⟩,there,rfl,rfl⟩
  · have room : (s.stage chain.index).outputs.size < op.outputs.room := by
      unfold reach at more
      omega
    have made := outputAt_next isOpen held tail room
    have stage := stage_addOutput s chain.index op chain.index inside
    rw [if_pos rfl] at stage
    have size : ((s.addOutput chain.index op).stage chain.index).outputs.size =
        (s.stage chain.index).outputs.size + 1 := by
      rw [stage,Array.size_push]
    have still : (s.addOutput chain.index op).operationAt chain.index = some op := by
      rw [← held,operationAt,stage]
      rfl
    refine ⟨_,_,output_ok.mpr ⟨own,inside,_,made,rfl⟩,⟨isOpen,own,still,by rw [stage]; exact tail⟩,
      Nat.le_of_eq size.symm,?_,?_⟩
    · unfold reach
      omega
    · rw [describe,describe,still,held]

theorem outputsFrom_length {done pipes : Array PipeId}
    (called : outputsFrom chain n count done s = .ok pipes t) : pipes.size = done.size + count := by
  induction count generalizing s n done with
  | zero => rw [(pure_ok.mp called).1,Nat.add_zero]
  | succ count ih =>
    obtain ⟨id,u,_,called⟩ := bind_ok.mp called
    rw [ih called,Array.size_push,Nat.add_assoc,Nat.add_comm 1]

theorem takeOutputs_length {pipes : List PipeId} (called : takeOutputs chain count s = .ok pipes t) :
    pipes.length = count := by
  obtain ⟨answer,u,asked,called⟩ := bind_ok.mp called
  obtain ⟨rfl,rfl⟩ := pure_ok.mp called
  rw [Array.length_toList,outputsFrom_length asked,Array.size_empty,Nat.zero_add]

theorem Offers.outputsFrom (offers : Offers chain op s) (done : Array PipeId)
    (next : n ≤ (s.stage chain.index).outputs.size) (enough : n + count ≤ s.reach chain.index op) :
    ∃ pipes t, outputsFrom chain n count done s = .ok pipes t := by
  induction count generalizing s n done with
  | zero => exact ⟨done,s,pure_ok.mpr ⟨rfl,rfl⟩⟩
  | succ count ih =>
    obtain ⟨id,u,asked,offersU,further,reach,_⟩ := offers.output next (by omega)
    obtain ⟨pipes,t,rest⟩ := ih offersU (done.push id) further (by omega)
    exact ⟨pipes,t,bind_ok.mpr ⟨id,u,asked,rest⟩⟩

theorem Offers.outputsFrom_error (offers : Offers chain op s) (done : Array PipeId)
    (next : n ≤ (s.stage chain.index).outputs.size) (declared : ∀ k < n + count, op.outputs.lacks k = false)
    (within : n ≤ s.reach chain.index op) (beyond : s.reach chain.index op < n + count) :
    ∃ t, Session.outputsFrom chain n count done s =
      .error (.unboundedIteration (s.describe chain.index)) t := by
  induction count generalizing s n done with
  | zero => omega
  | succ count ih =>
    rcases Nat.lt_or_eq_of_le within with more | last
    · obtain ⟨id,u,asked,offersU,further,reach,describe⟩ := offers.output next more
      rw [← describe]
      obtain ⟨t,failed⟩ := ih offersU (done.push id) further
        (fun k below => declared k (by omega)) (by omega) (by omega)
      exact ⟨t,bind_error.mpr (.inr ⟨id,u,asked,failed⟩)⟩
    · obtain ⟨isOpen,own,held,tail⟩ := offers
      have absent : (s.stage chain.index).outputs[n]? = none := by
        rw [Array.getElem?_eq_none_iff,last]
        exact Nat.le_max_left ..
      have full : ¬ n < op.outputs.room := by
        rw [last]
        exact Nat.not_lt.mpr (Nat.le_max_right ..)
      rw [Pads.lt_room,not_and,Nat.not_lt] at full
      have here := declared n (by omega)
      have refused := outputAt_limit isOpen held tail absent here (full here)
      refine ⟨s,bind_error.mpr (.inl (bind_error.mpr (.inr ⟨_,_,stageIndex_ok.mpr
        ⟨own,holds_inside held,rfl,rfl⟩,?_⟩)))⟩
      exact bind_error.mpr (.inl (bind_error.mpr (.inl refused)))

theorem Spread.onPads (spread : Spread s) {pipes : List PipeId} (here : s.OnPads chain pipes) :
    pipes.Nodup ∧ s.Owns pipes := by
  refine ⟨List.nodup_iff_getElem?_ne_getElem?.mpr fun j k less bound same => ?_,fun id member => ?_⟩
  · obtain ⟨id,first⟩ : ∃ id, pipes[j]? = some id := ⟨_,List.getElem?_eq_getElem (by omega)⟩
    have one := (here j id first).pad
    have two := (here k id (same ▸ first)).pad
    rw [← Array.getElem?_toList] at one two
    have inside := (List.getElem?_eq_some_iff.mp one).1
    exact Nat.ne_of_lt less ((List.getElem?_inj inside (spread.distinct _)).mp (one.trans two.symm))
  · obtain ⟨k,found⟩ := List.mem_iff_getElem?.mp member
    have onPad := here k id found
    exact ⟨onPad.pipe,spread.inside _ _ (Array.mem_of_getElem? onPad.pad)⟩

theorem Offers.takeOutputs (offers : Offers chain op s) (spread : Spread s)
    (enough : count ≤ s.reach chain.index op) :
    ∃ pipes t, Session.takeOutputs chain count s = .ok pipes t ∧ pipes.length = count ∧ pipes.Nodup ∧
      t.Owns pipes := by
  rw [← Nat.zero_add count] at enough
  obtain ⟨pipes,t,asked⟩ := offers.outputsFrom #[] (Nat.zero_le _) enough
  have called : Session.takeOutputs chain count s = .ok pipes.toList t :=
    bind_ok.mpr ⟨_,_,asked,pure_ok.mpr ⟨rfl,rfl⟩⟩
  have holds : (s.stage chain.index).operation ≠ none := by
    intro empty
    simpa [operationAt,empty] using offers.held
  obtain ⟨distinct,owned⟩ := (spread_of_growth (takeOutputs_does.ok called) spread).onPads
    (takeOutputs_onPads holds called)
  exact ⟨_,t,called,takeOutputs_length called,distinct,owned⟩

theorem Offers.takeOutputs_error (offers : Offers chain op s)
    (declared : ∀ k < count, op.outputs.lacks k = false) (beyond : s.reach chain.index op < count) :
    ∃ t, Session.takeOutputs chain count s =
      .error (.unboundedIteration (s.describe chain.index)) t := by
  obtain ⟨t,failed⟩ := @Offers.outputsFrom_error s chain op 0 count offers #[] (Nat.zero_le _)
    (by simpa using declared) (Nat.zero_le _) (by rwa [Nat.zero_add])
  exact ⟨t,bind_error.mpr (.inl failed)⟩

end Requests

/-- A pipe of a kind that is split, which no reader has taken or any number of readers may take. -/
structure Splittable (s : Session) (id : PipeId) : Prop where
  own : id.session = s.serial
  inside : id.index < s.pipes.size
  free : (s.pipe id.index).shared = true ∨ (s.pipe id.index).taken = false
  media : (s.pipe id.index).media = .video ∨ (s.pipe id.index).media = .audio

def splitPlace (s : Session) (id : PipeId) : String :=
  "chain '" ++ (s.pipe id.index).media.splitName ++ "'"

section Splits
variable {s : Session} {id : PipeId} {count : Nat}

theorem resolve_free {r : Nat} (free : (s.pipe (s.reader r).pipe).shared = true ∨
    (s.pipe (s.reader r).pipe).taken = false) : resolve r s = .ok () (s.takeDirect r) := by
  obtain ⟨q,took⟩ : ∃ q, (s.pipe (s.reader r).pipe).take = .ok q := by
    unfold Pipe.take
    rcases free with shared | untaken
    · exact ⟨_,if_pos shared⟩
    · split
      · exact ⟨_,rfl⟩
      · exact ⟨_,if_neg (by simp [untaken])⟩
  have taken : updatePipe (s.reader r).pipe Pipe.take s =
      .ok () (s.modifyPipe (s.reader r).pipe fun _ => q) := updatePipe_ok.mpr ⟨q,took,rfl⟩
  have called : resolve r s =
      .ok () ((s.modifyPipe (s.reader r).pipe fun _ => q).markResolved r) := by
    simp only [resolve,bind_ok,get_ok,choice_ok,modify_ok,and_assoc,exists_and_left,exists_eq_left]
    exact .inl ⟨by simpa using free,(),_,taken,rfl⟩
  rw [called,takePipe_ok taken]
  rfl

theorem Splittable.resolves (able : s.Splittable id) (op : Operation) :
    let x := (s.addChain [id.index]).hold s.stages.size op
    resolveAll [s.readers.size] x = .ok () (x.takeDirect s.readers.size) := by
  intro x
  have reader : x.reader s.readers.size = ⟨id.index,.stage s.stages.size,false⟩ :=
    reader_addChain_new s [id.index] 0 (by simp)
  have pipe : x.pipe id.index = note (placesOf id.index s.readers.size [id.index]) (s.pipe id.index) :=
    pipe_addChain s (by simpa using able.inside) id.index
  refine bind_ok.mpr ⟨(),_,resolve_free ?_,pure_ok.mpr ⟨rfl,rfl⟩⟩
  rw [reader,pipe,note_shared,note_taken]
  exact able.free

theorem Splittable.begin (able : s.Splittable id) (op : Operation) (isOpen : s.completed = false) :
    ∃ t, (do extend (← start [id]) op) s = .ok ⟨s.serial,s.stages.size⟩ t ∧
      Offers ⟨s.serial,s.stages.size⟩ op t ∧ (t.stage s.stages.size).outputs = #[] := by
  let w := s.addChain [id.index]
  let x := w.hold s.stages.size op
  have stage : w.stage s.stages.size = ⟨none,[s.readers.size],#[],none,none⟩ :=
    stage_addChain_one s id.index
  have bound : s.stages.size < w.stages.size := by simp [w,addChain_eq]
  have serial : w.serial = s.serial := by simp [w,addChain_eq]
  have operations : w.operations = s.operations := by simp [w,addChain_eq]
  have opened : w.completed = false := by simpa [w,addChain_eq] using isOpen
  have started : start [id] s = .ok ⟨s.serial,s.stages.size⟩ w :=
    start_ok.mpr ⟨isOpen,by simpa [Owns] using ⟨able.own,able.inside⟩,rfl,rfl⟩
  have extended : extend ⟨s.serial,s.stages.size⟩ op w =
      .ok ⟨s.serial,s.stages.size⟩ (x.takeDirect s.readers.size) := by
    refine extend_ok.mpr ⟨opened,serial.symm,bound,by rw [stage],.inl ⟨by rw [stage],rfl,?_⟩⟩
    rw [stage]
    exact able.resolves op
  have held : (x.takeDirect s.readers.size).stage s.stages.size =
      ⟨some s.operations.size,[s.readers.size],#[],none,none⟩ := stage_begun s id.index op
  refine ⟨x.takeDirect s.readers.size,bind_ok.mpr ⟨_,w,started,extended⟩,⟨opened,serial.symm,?_,?_⟩,?_⟩
  · rw [operationAt,held]
    exact congrArg some ((operation_hold w s.stages.size op _).trans (if_pos (by rw [operations])))
  · rw [held]
  · rw [held]

theorem Splittable.splitChain (able : s.Splittable id) (isOpen : s.completed = false) (count : Nat) :
    ∃ op t, Session.splitChain id count s = .ok ⟨s.serial,s.stages.size⟩ t ∧
      Offers ⟨s.serial,s.stages.size⟩ op t ∧ (t.stage s.stages.size).outputs = #[] ∧
      op.outputs = .fixed (List.replicate count (s.pipe id.index).media) ∧
      op.target = (s.pipe id.index).media.splitName := by
  let op := ((Operation.named (s.pipe id.index).media.splitName).withArguments [.ofNat count]).withOutputs
    (.fixed (List.replicate count (s.pipe id.index).media))
  obtain ⟨t,begun,offers,bare⟩ := able.begin op isOpen
  have known : Helper.split.filter (s.pipe id.index).media (s.pipe id.index).describe =
      .ok (s.pipe id.index).media.splitName := by
    rcases able.media with media | media <;> rw [media] <;> rfl
  have chosen : helper .split (s.pipe id.index) s = .ok (s.pipe id.index).media.splitName s := by
    rw [helper,known]
    rfl
  refine ⟨op,t,?_,offers,bare,rfl,rfl⟩
  refine bind_ok.mpr ⟨(),s,requireOpen_ok.mpr ⟨isOpen,rfl⟩,bind_ok.mpr ⟨s,s,get_ok.mpr ⟨rfl,rfl⟩,?_⟩⟩
  refine bind_ok.mpr ⟨_,s,pipeIndex_ok.mpr ⟨able.own,able.inside,rfl,rfl⟩,?_⟩
  exact bind_ok.mpr ⟨_,s,chosen,begun⟩

theorem Splittable.served (able : s.Splittable id) (spread : s.Spread) (isOpen : s.completed = false)
    (count : Nat) : ServedUpTo outputLimit (s.splitPlace id) (split id count) s count
      fun pipe => pipe.media = (s.pipe id.index).media := by
  obtain ⟨op,t,chained,offers,bare,outputs,target⟩ := able.splitChain isOpen count
  have spreadT := spread_of_growth (splitChain_does.ok chained) spread
  have room : t.reach s.stages.size op = min count outputLimit := by
    rw [reach,bare,Pads.room,outputs]
    simp [Pads.count]
  constructor
  · intro few
    have enough : count ≤ t.reach s.stages.size op := by rw [room,Nat.min_eq_left few]
    obtain ⟨pipes,u,taken,length,distinct,owned⟩ := offers.takeOutputs spreadT enough
    refine ⟨pipes,u,bind_ok.mpr ⟨_,t,chained,taken⟩,length,distinct,owned,fun given member => ?_⟩
    obtain ⟨rfl,rfl⟩ := takeOutputs_fresh offers.held bare taken
    obtain ⟨k,less,rfl⟩ := List.mem_map.mp member
    rw [List.mem_range] at less
    have made := (addOutputs_lengthened t op count (holds_inside offers.held)).media k less
    rw [made,outputs,bare]
    simp [Pads.media,Pads.declared,less]
  · intro many
    have declared : ∀ k < count, op.outputs.lacks k = false := fun k less => by
      simp [outputs,Pads.lacks,Pads.count,less]
    obtain ⟨u,refused⟩ := offers.takeOutputs_error declared
      (by rw [room]; exact Nat.lt_of_le_of_lt (Nat.min_le_right ..) many)
    have place : t.describe s.stages.size = s.splitPlace id := by
      rw [describe,offers.held,splitPlace,← target]
      rfl
    rw [place] at refused
    exact ⟨u,bind_error.mpr (.inr ⟨_,t,chained,refused⟩)⟩

end Splits

end Session

def Catalog.splitCount : List Argument → Option Nat
  | [] => some 2
  | [.scalar text] => readCount text
  | _ => none

namespace Script
open Session
variable {s t : Session} {names : Names}

theorem bindAll_fresh {pairs : List (String × PipeId)}
    (fresh : ∀ pair ∈ pairs, names.lookup pair.1 = none) (distinct : (pairs.map (·.1)).Nodup) :
    names.bindAll pairs s = .ok (pairs.reverse ++ names) s := by
  induction pairs generalizing names with
  | nil => rfl
  | cons pair rest ih =>
    obtain ⟨here,later⟩ := List.forall_mem_cons.mp fresh
    rw [List.map_cons,List.nodup_cons] at distinct
    have bound : names.bind pair.1 pair.2 s = .ok (pair :: names) s := by
      simp [Names.bind,here,pure_ok]
    have apart : ∀ other ∈ rest, (pair :: names).lookup other.1 = none := by
      intro other member
      have different : other.1 ≠ pair.1 := fun same =>
        distinct.1 (same ▸ List.mem_map_of_mem member)
      rw [List.lookup_cons,beq_eq_false_iff_ne.mpr different]
      exact later other member
    have rest := ih apart distinct.2
    rw [List.reverse_cons,List.append_assoc,List.singleton_append,Names.bindAll,List.foldlM_cons]
    exact bind_ok.mpr ⟨_,s,bound,rest⟩

theorem resolveAll_known {wanted : List String} {pipes : List PipeId}
    (known : List.Forall₂ (fun name pipe => names.lookup name = some pipe) wanted pipes) :
    names.resolveAll wanted s = .ok pipes s := by
  induction known with
  | nil => rfl
  | @cons name pipe wanted pipes here _ ih =>
    rw [Names.resolveAll,List.mapM_cons]
    refine bind_ok.mpr ⟨pipe,s,?_,bind_ok.mpr ⟨pipes,s,ih,pure_ok.mpr ⟨rfl,rfl⟩⟩⟩
    rw [Names.resolve,here]
    exact pure_ok.mpr ⟨rfl,rfl⟩

theorem resolveAll_bound {outputs : List String} {made : List PipeId}
    (distinct : outputs.Nodup) (length : made.length = outputs.length) :
    Names.resolveAll ((outputs.zip made).reverse ++ names) outputs s = .ok made s := by
  refine resolveAll_known (List.forall₂_iff_get.mpr ⟨length.symm,fun k first second => ?_⟩)
  have short : k < (outputs.zip made).length := by
    rw [List.length_zip]
    omega
  have keys : ((outputs.zip made).map Prod.fst).Nodup := by
    rwa [List.map_fst_zip (Nat.le_of_eq length.symm)]
  have pair : (outputs.zip made)[k] = (outputs.get ⟨k,first⟩,made.get ⟨k,second⟩) := by simp
  obtain ⟨before,after,cut⟩ := List.append_of_mem (pair ▸ List.getElem_mem short)
  rw [cut] at keys ⊢
  rw [List.map_append,List.map_cons,List.nodup_append] at keys
  rw [List.reverse_append,List.reverse_cons,List.append_assoc,List.append_assoc]
  refine List.lookup_eq_some_iff.mpr ⟨after.reverse,before.reverse ++ names,?_,?_⟩
  · simp
  · intro other member
    rw [bne_iff_ne]
    intro same
    have listed := List.mem_map_of_mem (f := Prod.fst) (List.mem_reverse.mp member)
    rw [← same] at listed
    exact (List.nodup_cons.mp keys.2.1).1 listed

/-- The builtin entry point of a split opens the chain of a step whose first filter is one. -/
theorem openChain_split {id : PipeId} {use : FilterUse} {args : List Argument} {count : Nat}
    (isOpen : s.completed = false) (entry : s.catalog.entry? "split" = some Catalog.splitEntry)
    (named : use.name = some "split") (noId : use.id = none)
    (read : use.args.mapM Argument.ofJson = .ok args) (counted : Catalog.splitCount args = some count) :
    openChain [id] use s = splitChain id count s := by
  have plan : Catalog.splitEntry [id] args = .ofCall (.splitChain id count) := by
    unfold Catalog.splitCount at counted
    split at counted
    next => cases counted; rfl
    next text => simp only [Catalog.splitEntry,counted]
    next => cases counted
  have opened : requireOpen "invoke" s = .ok () s := requireOpen_ok.mpr ⟨isOpen,rfl⟩
  have looked : (get : Build Session) s = .ok s s := get_ok.mpr ⟨rfl,rfl⟩
  have invoked : invoke "split" [id] args s = splitChain id count s := by
    rw [invoke,run_bind opened,run_bind looked,entry]
    change follow (Catalog.splitEntry [id] args) s = _
    rw [plan,Account.follow_ofCall]
    rfl
  have given : scripted (use.args.mapM Argument.ofJson) s = .ok args s := by
    rw [read]
    rfl
  rw [openChain,run_bind looked,named,Option.getD_some,entry]
  simp only [noId,Option.isSome_none,Bool.false_eq_true,if_false]
  rw [run_bind given,invoked]

theorem buildChain_alone (inputs : List PipeId) (use : FilterUse) :
    buildChain inputs [use] = openChain inputs use := bind_pure _

def splitStep (i : Nat) (names : Names) (input : String) (use : FilterUse) (outputs : List String) :
    Build (List PipeId) := do
  let names ← runStep i names (.chain [input] [use] outputs)
  names.resolveAll outputs

structure SplitsInto (s : Session) (names : Names) (use : FilterUse) (outputs : List String) : Prop where
  entry : s.catalog.entry? "split" = some Catalog.splitEntry
  named : use.name = some "split"
  noId : use.id = none
  count : ∃ args, use.args.mapM Argument.ofJson = .ok args ∧
    Catalog.splitCount args = some outputs.length
  distinct : outputs.Nodup
  fresh : ∀ name ∈ outputs, names.lookup name = none

theorem SplitsInto.served {i : Nat} {id : PipeId} {input : String} {use : FilterUse}
    {outputs : List String} (splits : SplitsInto s names use outputs) (able : s.Splittable id)
    (spread : s.Spread) (isOpen : s.completed = false) (known : names.lookup input = some id) :
    ServedUpTo outputLimit (s.splitPlace id) (splitStep i names input use outputs) s outputs.length
      fun pipe => pipe.media = (s.pipe id.index).media := by
  obtain ⟨entry,named,noId,⟨args,read,counted⟩,distinct,fresh⟩ := splits
  obtain ⟨serves,refuses⟩ := able.served spread isOpen outputs.length
  have asked : (do Session.takeOutputs (← buildChain [id] [use]) outputs.length) s =
      split id outputs.length s := by
    rw [buildChain_alone]
    exact run_congr (openChain_split isOpen entry named noId read counted)
  have resolved : names.resolveAll [input] s = .ok [id] s :=
    resolveAll_known (.cons known .nil)
  constructor
  · intro few
    obtain ⟨made,t,called,length,apart,owned,fit⟩ := serves few
    rw [← asked] at called
    have bound : names.bindAll (outputs.zip made) t = .ok ((outputs.zip made).reverse ++ names) t := by
      refine bindAll_fresh (fun pair member => fresh _ (List.of_mem_zip member).1) ?_
      rwa [List.map_fst_zip (Nat.le_of_eq length.symm)]
    have ran : runStep i names (.chain [input] [use] outputs) s =
        .ok ((outputs.zip made).reverse ++ names) t :=
      bind_ok.mpr ⟨_,s,resolved,bind_ok.mpr ⟨_,t,Account.atStep_ok.mpr called,bound⟩⟩
    exact ⟨made,t,bind_ok.mpr ⟨_,t,ran,resolveAll_bound distinct length⟩,length,apart,owned,fit⟩
  · intro many
    obtain ⟨t,failed⟩ := refuses many
    rw [← asked] at failed
    refine ⟨t,bind_error.mpr (.inl (bind_error.mpr (.inr ⟨_,s,resolved,?_⟩)))⟩
    exact bind_error.mpr (.inl (Account.atStep_error failed))

end Script

namespace Session
open Script
variable {s : Session}

/-- On every open session a request for a number of outputs is served as long as the number does not
pass the limit, or the outputs that are there, and is ended by the limit if it does: for the outputs
of an operation that declares none, for a split of a pipe, and for a split in a script. -/
theorem counts_served {serial : Nat} {catalog : Catalog} (runs : Runs (.new serial catalog) s)
    (isOpen : s.completed = false) :
    (∀ chain op count, chain.session = s.serial → s.operationAt chain.index = some op →
      (s.stage chain.index).next = none → op.outputs.count = none →
      ServedUpTo (max (s.stage chain.index).outputs.size outputLimit) (s.describe chain.index)
        (takeOutputs chain count) s count fun _ => True) ∧
    (∀ id count, s.Splittable id → ServedUpTo outputLimit (s.splitPlace id) (split id count) s count
      fun pipe => pipe.media = (s.pipe id.index).media) ∧
    ∀ i names input id use outputs, names.lookup input = some id → s.Splittable id →
      SplitsInto s names use outputs →
      ServedUpTo outputLimit (s.splitPlace id) (splitStep i names input use outputs) s outputs.length
        fun pipe => pipe.media = (s.pipe id.index).media := by
  have spread := spread_of_changes runs.changes (.new serial catalog)
  refine ⟨fun chain op count own held tail dynamic => ?_,
    fun id count able => able.served spread isOpen count,
    fun i names input id use outputs known able splits => splits.served able spread isOpen known⟩
  have offers : Offers chain op s := ⟨isOpen,own,held,tail⟩
  have reach : s.reach chain.index op = max (s.stage chain.index).outputs.size outputLimit := by
    simp only [Session.reach,Pads.room,dynamic]
  rw [ServedUpTo,← reach]
  constructor
  · intro few
    obtain ⟨pipes,t,called,length,distinct,owned⟩ := offers.takeOutputs spread few
    exact ⟨pipes,t,called,length,distinct,owned,fun _ _ => trivial⟩
  · exact offers.takeOutputs_error fun k _ => by simp only [Pads.lacks,dynamic]

def selected : Session :=
  carryOut [⟨_,.inputStream "0:v"⟩,⟨_,.start [⟨0,0⟩]⟩,⟨_,.extend ⟨0,0⟩ (.named "select")⟩]
    (.new 0 .builtin)

theorem selected_runs : Runs (.new 0 .builtin) selected := runs_carryOut (.refl _) _

theorem selected_facts : selected.completed = false ∧ selected.serial = 0 ∧
    selected.operationAt 0 = some (.named "select") ∧ (selected.stage 0).next = none ∧
    (selected.stage 0).outputs.size = 0 ∧ selected.describe 0 = "chain 'select'" ∧
    selected.splitPlace ⟨0,0⟩ = "chain 'split'" := by
  decide +kernel

theorem selected_splittable : selected.Splittable ⟨0,0⟩ := by
  constructor <;> decide +kernel

theorem counts_served_selected :
    (∃ pipes t, takeOutputs ⟨0,0⟩ 10000 selected = .ok pipes t ∧ pipes.length = 10000 ∧ pipes.Nodup) ∧
    (∃ t, takeOutputs ⟨0,0⟩ 10001 selected = .error (.unboundedIteration "chain 'select'") t) ∧
    (∃ pipes t, split ⟨0,0⟩ 9999 selected = .ok pipes t ∧ pipes.length = 9999 ∧ pipes.Nodup) ∧
    ∃ pipes t, splitStep 0 [("v",⟨0,0⟩)] "v" ⟨some "split",none,[.text "3"],[],none⟩ ["a","b","c"]
      selected = .ok pipes t ∧ pipes.length = 3 := by
  obtain ⟨isOpen,serial,held,tail,bare,describe,_⟩ := selected_facts
  obtain ⟨chains,splits,steps⟩ := counts_served selected_runs isOpen
  have into : SplitsInto selected [("v",⟨0,0⟩)] ⟨some "split",none,[.text "3"],[],none⟩ ["a","b","c"] :=
    ⟨rfl,rfl,rfl,⟨_,rfl,by decide⟩,by decide,by decide⟩
  have chain (count : Nat) := chains ⟨0,0⟩ _ count serial.symm held tail rfl
  obtain ⟨pipes,t,taken,length,distinct,_⟩ := (chain 10000).1 (Nat.le_max_right ..)
  have beyond := (chain 10001).2 (by rw [bare]; decide)
  rw [describe] at beyond
  obtain ⟨more,u,divided,number,apart,_⟩ := (splits ⟨0,0⟩ 9999 selected_splittable).1 (by decide)
  obtain ⟨made,v,stepped,three,_⟩ := (steps 0 _ "v" _ _ _ rfl selected_splittable into).1 (by decide)
  exact ⟨⟨pipes,t,taken,length,distinct⟩,beyond,⟨more,u,divided,number,apart⟩,made,v,stepped,three⟩

/-- A count one past the limit is refused, on the outputs of a chain and in a split. -/
theorem counts_refused : ∃ s, Runs (.new 0 .builtin) s ∧ s.completed = false ∧
    s.operationAt 0 = some (.named "select") ∧ (s.stage 0).next = none ∧
    (∃ t, takeOutputs ⟨0,0⟩ 10001 s = .error (.unboundedIteration "chain 'select'") t) ∧
    (s.pipe 0).shared = true ∧ (s.pipe 0).media = .video ∧
    ∃ t, split ⟨0,0⟩ 10001 s = .error (.unboundedIteration "chain 'split'") t := by
  obtain ⟨isOpen,serial,held,tail,bare,describe,place⟩ := selected_facts
  have offers : Offers ⟨0,0⟩ (.named "select") selected := ⟨isOpen,serial.symm,held,tail⟩
  have reach : selected.reach 0 (.named "select") < 10001 := by
    rw [Session.reach,bare]
    decide
  have refused := offers.takeOutputs_error (fun _ _ => rfl) reach
  rw [describe] at refused
  have spread := spread_of_changes selected_runs.changes (.new 0 .builtin)
  have ended := (selected_splittable.served spread isOpen 10001).2 (by decide)
  rw [place] at ended
  exact ⟨selected,selected_runs,isOpen,held,tail,refused,by decide +kernel,by decide +kernel,ended⟩

end Session
end MediaGraph
