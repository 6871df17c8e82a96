import MediaGraph.Proofs.Declared
import MediaGraph.Proofs.Obstacles
import MediaGraph.Proofs.Outlets
import MediaGraph.Proofs.Wiring

/-! Pulling the outputs of a chain to their end.
First come the pipes that are on the pads. On the last chain of a sequence new ones follow, as many as
the operation declares or, where it declares none, as many as there may be. Then, and in every other
case at once, there is an end or a failure. -/
namespace MediaGraph

/-- How many outputs an operation with the pads can have made for it. -/
def Pads.room (pads : Pads) : Nat :=
  match pads.count with
  | some count => min count outputLimit
  | Option.none => outputLimit

namespace Pads
variable {pads : Pads} {n count : Nat}

theorem lt_room : n < pads.room ↔ pads.lacks n = false ∧ n < outputLimit := by
  cases count : pads.count <;> simp [room,lacks,count]

theorem lacks_count (fixed : pads.count = some count) : pads.lacks n = false ↔ n < count := by
  simp [lacks,fixed]

theorem count_media {kinds : List Media} (declared : pads = .fixed kinds ∨ pads = .none ∧ kinds = []) :
    pads.count = some kinds.length ∧ ∀ k : Nat, ∀ kind, kinds[k]? = some kind → pads.media k = kind := by
  rcases declared with rfl | ⟨rfl,rfl⟩
  · exact ⟨rfl,fun k kind there => by simp [media,Pads.declared,there]⟩
  · exact ⟨rfl,fun k kind there => by simp at there⟩

theorem room_le (pads : Pads) : pads.room ≤ outputLimit := by
  cases count : pads.count <;> simp [room,count]

end Pads

namespace Session
open Relation

/-- Pulls from pad `n` on come to the pipes, and then to the end or a failure. -/
inductive Drained (i : Nat) : Nat → Session → List Nat → Option GraphError → Session → Prop
  | last {n s t} (ended : outputAt i n s = .ok none t) : Drained i n s [] none t
  | failed {n s t e} (failed : outputAt i n s = .error e t) : Drained i n s [] (some e) t
  | next {n s t u p pipes failure} (found : outputAt i n s = .ok (some p) t)
      (rest : Drained i (n + 1) t pipes failure u) : Drained i n s (p :: pipes) failure u

section Pulls
variable {s t u : Session} {i n : Nat} {pipes more : List Nat} {failure : Option GraphError}
  {op : Operation}

theorem Drained.pull {pulls : Nat} (drained : Drained i n s pipes failure t) (done : Array PipeId)
    (enough : pipes.length < pulls) :
    pull i n pulls done s =
      .ok ⟨done.toList ++ pipes.map (PipeId.mk s.serial),true,failure⟩ t := by
  induction drained generalizing pulls done with
  | last ended =>
    obtain ⟨pulls,rfl⟩ := Nat.exists_eq_succ_of_ne_zero (Nat.ne_of_gt enough)
    refine bind_ok.mpr ⟨_,_,caught_ok.mpr (.inl ⟨_,ended,rfl⟩),?_⟩
    exact pure_ok.mpr ⟨by simp,rfl⟩
  | failed failed =>
    obtain ⟨pulls,rfl⟩ := Nat.exists_eq_succ_of_ne_zero (Nat.ne_of_gt enough)
    refine bind_ok.mpr ⟨_,_,caught_ok.mpr (.inr ⟨_,failed,rfl⟩),?_⟩
    exact pure_ok.mpr ⟨by simp,rfl⟩
  | @next n s t u p pipes failure found rest ih =>
    obtain ⟨pulls,rfl⟩ := Nat.exists_eq_succ_of_ne_zero (Nat.ne_zero_of_lt enough)
    have serial := serial_of_growth (outputAt_does.ok found)
    refine bind_ok.mpr ⟨_,_,caught_ok.mpr (.inl ⟨_,found,rfl⟩),?_⟩
    refine bind_ok.mpr ⟨_,_,pipeId_ok.mpr ⟨rfl,rfl⟩,?_⟩
    rw [ih _ (Nat.lt_of_succ_lt_succ enough),serial]
    simp

theorem Drained.after {before there : List Nat}
    (found : ∀ k p, (before ++ there)[k]? = some p → outputAt i k s = .ok (some p) s)
    (rest : Drained i (before ++ there).length s more failure t) :
    Drained i before.length s (there ++ more) failure t := by
  induction there generalizing before with
  | nil => simpa using rest
  | cons p there ih =>
    have next := @ih (before ++ [p]) (by simpa using found) (by simpa using rest)
    rw [List.length_append] at next
    exact .next (found before.length p (by simp)) next

theorem drained_placeholder (empty : s.operationAt i = none) :
    Drained i 0 s (s.inputPipes i) none s := by
  have last : Drained i (s.inputPipes i).length s [] none s :=
    .last (outputAt_ok.mpr (.inl ⟨empty,by simp,rfl⟩))
  have all := @Drained.after s s i [] none [] (s.inputPipes i)
    (fun k p found => outputAt_ok.mpr (.inl ⟨empty,found.symm,rfl⟩)) last
  rwa [List.append_nil] at all

theorem drained_outputs (held : s.operationAt i = some op)
    (rest : Drained i (s.stage i).outputs.size s more failure t) :
    Drained i 0 s ((s.stage i).outputs.toList ++ more) failure t := by
  refine @Drained.after s t i more failure [] _ (fun k p found => ?_) (by simpa using rest)
  exact outputAt_ok.mpr (.inr ⟨op,held,.inl ⟨p,by simpa using found,rfl,rfl⟩⟩)

theorem outputAt_next (isOpen : s.completed = false) (held : s.operationAt i = some op)
    (tail : (s.stage i).next = none) (more : (s.stage i).outputs.size < op.outputs.room) :
    outputAt i (s.stage i).outputs.size s = .ok (some s.pipes.size) (s.addOutput i op) := by
  obtain ⟨declared,few⟩ := Pads.lt_room.mp more
  refine outputAt_ok.mpr (.inr ⟨op,held,.inr ⟨by simp,isOpen,tail,.inr ⟨declared,few,?_,?_⟩⟩⟩)
  · rw [Nat.add_sub_cancel_left]
    rfl
  · rw [stage_addOutput s i op i (holds_inside held),if_pos rfl]
    simp

theorem drained_room (isOpen : s.completed = false) (held : s.operationAt i = some op)
    (tail : (s.stage i).next = none) {count : Nat}
    (left : op.outputs.room - (s.stage i).outputs.size = count) :
    ∃ pipes t, Drained i (s.stage i).outputs.size s pipes
        (if op.outputs.lacks ((s.stage i).outputs.size + count) then none
          else some (.unboundedIteration (s.describe i))) t ∧ pipes.length = count ∧
      t.operationAt i = some op := by
  -- On the outputs that may still be made; each pull leaves one less and changes nothing else here.
  induction count generalizing s with
  | zero =>
    refine ⟨[],s,?_,rfl,held⟩
    have full : ¬ (s.stage i).outputs.size < op.outputs.room := by omega
    rw [Pads.lt_room,not_and] at full
    split
    next ends =>
      exact .last (outputAt_ok.mpr (.inr ⟨op,held,.inr ⟨by simp,isOpen,tail,.inl ⟨ends,rfl,rfl⟩⟩⟩))
    next more =>
      have declared := Bool.not_eq_true _ |>.mp more
      exact .failed (outputAt_limit isOpen held tail (by simp) declared (Nat.le_of_not_lt (full declared)))
  | succ count ih =>
    have stage := stage_addOutput s i op i (holds_inside held)
    rw [if_pos rfl] at stage
    have size : ((s.addOutput i op).stage i).outputs.size = (s.stage i).outputs.size + 1 := by
      rw [stage,Array.size_push]
    have still : (s.addOutput i op).operationAt i = some op := by
      rw [← held,operationAt,stage]
      rfl
    have describe : (s.addOutput i op).describe i = s.describe i := by
      rw [Session.describe,Session.describe,still,held]
    obtain ⟨pipes,t,drained,length,kept⟩ :=
      @ih (s.addOutput i op) isOpen still (by rw [stage]; exact tail) (by omega)
    rw [size,describe,Nat.add_right_comm] at drained
    refine ⟨_ :: pipes,t,.next (outputAt_next isOpen held tail (by omega)) drained,?_,kept⟩
    rw [List.length_cons,length]

/-- However a chain is placed, its pulls come to an end. -/
theorem exists_drained (s : Session) (i : Nat) : ∃ pipes failure t, Drained i 0 s pipes failure t ∧
    pipes.length ≤ max (max (s.stage i).inputs.length (s.stage i).outputs.size) outputLimit := by
  cases held : s.operationAt i with
  | none => exact ⟨_,_,_,drained_placeholder held,by rw [inputPipes,List.length_map]; omega⟩
  | some op =>
    have listed : ((s.stage i).outputs.toList ++ []).length ≤
        max (max (s.stage i).inputs.length (s.stage i).outputs.size) outputLimit := by
      rw [List.append_nil,Array.length_toList]
      omega
    cases asked : outputAt i (s.stage i).outputs.size s with
    | error e t => exact ⟨_,_,_,drained_outputs held (.failed asked),listed⟩
    | ok answer t =>
      cases answer with
      | none => exact ⟨_,_,_,drained_outputs held (.last asked),listed⟩
      | some p =>
        rcases outputAt_ok.mp asked with ⟨empty,_⟩ | ⟨_,_,⟨q,there,_⟩ | ⟨_,isOpen,tail,_⟩⟩
        · simp [empty] at held
        · simp at there
        · obtain ⟨more,u,drained,length,_⟩ := drained_room isOpen held tail rfl
          refine ⟨_,_,_,drained_outputs held drained,?_⟩
          have bound := op.outputs.room_le
          rw [List.length_append,Array.length_toList,length]
          omega

theorem iterate_drained {chain : ChainId} {limit : Option Nat} (own : chain.session = s.serial)
    (inside : chain.index < s.stages.size) (drained : Drained chain.index 0 s pipes failure t)
    (enough : pipes.length < limit.getD (max (max (s.stage chain.index).inputs.length
      (s.stage chain.index).outputs.size) outputLimit + 1)) :
    iterate chain limit s = .ok ⟨pipes.map (PipeId.mk s.serial),true,failure⟩ t := by
  refine bind_ok.mpr ⟨_,_,stageIndex_ok.mpr ⟨own,inside,rfl,rfl⟩,?_⟩
  exact bind_ok.mpr ⟨_,_,get_ok.mpr ⟨rfl,rfl⟩,drained.pull #[] enough⟩

theorem iterate_room {chain : ChainId} (own : chain.session = s.serial) (isOpen : s.completed = false)
    (held : s.operationAt chain.index = some op) (tail : (s.stage chain.index).next = none) {count : Nat}
    (full : max (s.stage chain.index).outputs.size op.outputs.room = count) :
    ∃ pipes t, iterate chain none s = .ok ⟨pipes,true,if op.outputs.lacks count then none
        else some (.unboundedIteration (s.describe chain.index))⟩ t ∧ pipes.length = count ∧
      t.operationAt chain.index = some op := by
  obtain ⟨more,t,drained,length,kept⟩ := drained_room isOpen held tail rfl
  have total : (s.stage chain.index).outputs.size +
      (op.outputs.room - (s.stage chain.index).outputs.size) = count := by omega
  have bound := op.outputs.room_le
  rw [total] at drained
  refine ⟨_,t,iterate_drained own (holds_inside held) (drained_outputs held drained) ?_,?_,kept⟩
  · rw [List.length_append,Array.length_toList,length,Option.getD_none]
    omega
  · rw [List.length_map,List.length_append,Array.length_toList,length,total]

end Pulls

section Requests
variable {s t : Session} {i n : Nat} {e : GraphError}

theorem outputAt_none (called : outputAt i n s = .ok none t) : t = s := by
  rcases outputAt_ok.mp called with ⟨_,_,same⟩ | ⟨op,held,⟨_,_,some,_⟩ | ⟨_,_,_,⟨_,_,same⟩ | made⟩⟩
  · exact same
  · cases some
  · exact same
  · obtain ⟨_,_,rfl,absent⟩ := made
    rw [(addOutputs_lengthened s op _ (holds_inside held)).here,eq_comm,Array.getElem?_eq_none_iff] at absent
    simp only [Array.size_append,List.size_toArray,List.length_range'] at absent
    omega

theorem outputIndex_error (failed : outputIndex i n s = .error e t) : t = s := by
  simp only [outputIndex,bind_error] at failed
  rcases failed with failed | ⟨answer,v,asked,failed⟩
  · exact (outputAt_error failed).1
  · cases answer with
    | some p => exact (pure_error.mp failed).elim
    | none =>
      obtain rfl := outputAt_none asked
      simp only [bind_error,get_error,get_ok,false_or,and_assoc,exists_and_left,exists_eq_left] at failed
      cases held : v.operationAt i with
      | none => exact (throw_error.mp (by simpa only [held] using failed)).2
      | some op => exact (throw_error.mp (by simpa only [held] using failed)).2

theorem output_error {chain : ChainId} (failed : output chain n s = .error e t) : t = s := by
  simp only [output,bind_error,stageIndex_ok] at failed
  rcases failed with absent | ⟨_,_,⟨_,_,rfl,rfl⟩,failed | ⟨p,v,_,failed⟩⟩
  · exact (leaves_error absent).symm.trans (leaves_stageIndex chain)
  · exact outputIndex_error failed
  · cases failed

end Requests
end Session

namespace Account
open Session
variable {catalog : Catalog} {events : List Event} {a : Account}

theorem Trace.iterate_fixed (trace : Trace catalog events a) {chain : ChainId} (known : chain ∈ a.chains)
    {op : Operation} (held : a.session.operationAt chain.index = some op)
    (isOpen : a.session.completed = false) (tail : (a.session.stage chain.index).next = none)
    {count : Nat} (fixed : op.outputs.count = some count) (few : count ≤ outputLimit)
    (other : ∀ event ∈ events, event.connected? ≠ some chain) :
    ∃ pipes t, iterate chain none a.session = .ok ⟨pipes,true,none⟩ t ∧ pipes.length = count ∧
      ∀ k id, pipes[k]? = some id → op.outputs.media k ≠ .unknown →
        (t.pipe id.index).media = op.outputs.media k := by
  have consistent := trace.reached.consistent
  have own := (consistent.issued.chain chain known).1
  have declared := trace.declared own other
  have room : op.outputs.room = count := by
    simp only [Pads.room,fixed,Nat.min_eq_left few]
  have present : (a.session.stage chain.index).outputs.size ≤ count := by
    by_contra many
    obtain ⟨p,found⟩ : ∃ p, (a.session.stage chain.index).outputs[count]? = some p :=
      ⟨_,Array.getElem?_eq_getElem (Nat.lt_of_not_le many)⟩
    have there := (declared op.outputs (by rw [padsAt,held,Option.map_some]) count p found).1
    exact Nat.lt_irrefl count ((Pads.lacks_count fixed).mp there)
  have full : max (a.session.stage chain.index).outputs.size op.outputs.room = count := by
    rw [room,Nat.max_eq_right present]
  obtain ⟨pipes,t,answered,length,kept⟩ := iterate_room own isOpen held tail full
  have ends : op.outputs.lacks count = true := by
    rw [← Bool.not_eq_false,Pads.lacks_count fixed]
    exact Nat.lt_irrefl count
  rw [if_pos ends] at answered
  refine ⟨pipes,t,answered,length,fun k id found coloured => ?_⟩
  have knows : a.Knows (.iterate chain none) := by simpa [Knows,Call.pipes,Call.chains,Call.operations]
  have after := declared_after declared consistent knows answered own (by simp [Event.connected?])
  have works : (a.session.stage chain.index).operation ≠ none := by
    intro empty
    simp [operationAt,empty] at held
  have here := (iterate_onPads works answered k id found).pad
  exact (after op.outputs (by rw [padsAt,kept,Option.map_some]) k id.index here).2 coloured

/-- What was told of the pads of chains agrees, and stays so: a pad has one pipe, on whatever way it was
asked for, and each pipe one pad. An iterator yields what the pads declare, or as much as there may be,
and always comes to an end. -/
theorem outlets_agree (trace : Trace catalog events a) :
    (∀ x ∈ events.flatMap Event.outlets, ∀ y ∈ events.flatMap Event.outlets,
      (x.pipe = y.pipe ↔ x.chain = y.chain ∧ x.pad = y.pad)) ∧
    (∀ chain ∈ a.chains, ∀ op, a.session.operationAt chain.index = some op →
      a.session.completed = false → (a.session.stage chain.index).next = none →
      (∀ kinds, op.outputs = .fixed kinds ∨ op.outputs = .none ∧ kinds = [] →
        kinds.length ≤ outputLimit → (∀ event ∈ events, event.connected? ≠ some chain) →
        ∃ pipes t, iterate chain none a.session = .ok ⟨pipes,true,none⟩ t ∧
          pipes.length = kinds.length ∧ ∀ k : Nat, ∀ id kind, pipes[k]? = some id → kinds[k]? = some kind →
            kind ≠ .unknown → (t.pipe id.index).media = kind) ∧
      (op.outputs = .dynamic →
        ∃ pipes t, iterate chain none a.session =
            .ok ⟨pipes,true,some (.unboundedIteration (a.session.describe chain.index))⟩ t ∧
          pipes.length = max (a.session.stage chain.index).outputs.size outputLimit)) ∧
    (∀ chain ∈ a.chains, ∃ answer t, answer.ended = true ∧ iterate chain none a.session = .ok answer t ∧
      ∀ limit, answer.pipes.length < limit → iterate chain (some limit) a.session = .ok answer t) ∧
    ∀ chain n e t, output chain n a.session = .error e t → t = a.session := by
  have consistent := trace.reached.consistent
  refine ⟨fun x told y also => ?_,fun chain known op held isOpen tail => ⟨fun kinds declared few other => ?_,
    fun dynamic => ?_⟩,fun chain known => ?_,fun chain n e t failed => output_error failed⟩
  · exact OnPad.iff consistent.kept.1 (trace.onPad told) (trace.onPad also)
  · obtain ⟨count,media⟩ := Pads.count_media declared
    obtain ⟨pipes,t,answered,length,coloured⟩ :=
      trace.iterate_fixed known held isOpen tail count few other
    refine ⟨pipes,t,answered,length,fun k id kind found there settled => ?_⟩
    have same := media k kind there
    rw [coloured k id found (same ▸ settled),same]
  · have count : op.outputs.count = none := by rw [dynamic]; rfl
    have room : op.outputs.room = outputLimit := by simp only [Pads.room,count]
    obtain ⟨pipes,t,answered,length,_⟩ := iterate_room (consistent.issued.chain chain known).1 isOpen held
      tail (congrArg (max _) room)
    have more : op.outputs.lacks (max (a.session.stage chain.index).outputs.size outputLimit) = false := by
      simp only [Pads.lacks,count]
    rw [more] at answered
    exact ⟨pipes,t,answered,length⟩
  · obtain ⟨own,inside,_⟩ := consistent.issued.chain chain known
    obtain ⟨pipes,failure,t,drained,bound⟩ := exists_drained a.session chain.index
    refine ⟨_,t,rfl,iterate_drained own inside drained (Nat.lt_succ_of_le bound),fun limit further => ?_⟩
    exact iterate_drained own inside drained (by simpa using further)

/-- A source with two outputs that are asked for in every way, and a filter without declared outputs. -/
def pulledSource : List ((reply : Reply) × Call reply) :=
  [⟨_,.start []⟩,⟨_,.extend ⟨0,0⟩ ((Operation.named "src").withOutputs (.fixed [.video,.audio]))⟩,
    ⟨_,.output ⟨0,0⟩ 1⟩,⟨_,.takeOutputs ⟨0,0⟩ 2⟩,⟨_,.iterate ⟨0,0⟩ none⟩,⟨_,.newPipe⟩,
    ⟨_,.start [⟨0,1⟩]⟩,⟨_,.extend ⟨0,1⟩ (.named "mix")⟩,⟨_,.connect ⟨0,1⟩ [⟨0,2⟩]⟩,
    ⟨_,.output ⟨0,1⟩ 2⟩,⟨_,.iterate ⟨0,1⟩ (some 2)⟩]

theorem outlets_agree_mix : ∃ a t u first second, run? pulledSource (.new 0 .empty) = some a ∧
    (history pulledSource (.new 0 .empty)).flatMap Event.outlets =
      [⟨⟨0,0⟩,1,⟨0,1⟩⟩,⟨⟨0,0⟩,0,⟨0,0⟩⟩,⟨⟨0,0⟩,1,⟨0,1⟩⟩,⟨⟨0,0⟩,0,⟨0,0⟩⟩,⟨⟨0,0⟩,1,⟨0,1⟩⟩,
        ⟨⟨0,1⟩,0,⟨0,2⟩⟩,⟨⟨0,1⟩,2,⟨0,4⟩⟩,⟨⟨0,1⟩,0,⟨0,2⟩⟩,⟨⟨0,1⟩,1,⟨0,3⟩⟩] ∧
    iterate ⟨0,0⟩ none a.session = .ok ⟨first,true,none⟩ t ∧ first.length = 2 ∧
    (∀ id, first[1]? = some id → (t.pipe id.index).media = .audio) ∧
    iterate ⟨0,1⟩ none a.session = .ok ⟨second,true,some (.unboundedIteration "chain 'mix'")⟩ u ∧
    second.length = 10000 := by
  have runs : (run? pulledSource (.new 0 .empty)).any (fun a => decide
      (⟨0,0⟩ ∈ a.chains ∧ ⟨0,1⟩ ∈ a.chains ∧ a.session.completed = false ∧
        a.session.operationAt 0 = some ((Operation.named "src").withOutputs (.fixed [.video,.audio])) ∧
        (a.session.stage 0).next = none ∧ a.session.operationAt 1 = some (.named "mix") ∧
        (a.session.stage 1).next = none ∧ (a.session.stage 1).outputs.size = 3 ∧
        a.session.describe 1 = "chain 'mix'")) = true := by decide +kernel
  obtain ⟨a,ran,facts⟩ := (Option.any_eq_true ..).mp runs
  obtain ⟨source,mix,isOpen,fixed,tail,dynamic,last,present,describe⟩ := of_decide_eq_true facts
  have told : (history pulledSource (.new 0 .empty)).flatMap Event.outlets =
      [⟨⟨0,0⟩,1,⟨0,1⟩⟩,⟨⟨0,0⟩,0,⟨0,0⟩⟩,⟨⟨0,0⟩,1,⟨0,1⟩⟩,⟨⟨0,0⟩,0,⟨0,0⟩⟩,⟨⟨0,0⟩,1,⟨0,1⟩⟩,
        ⟨⟨0,1⟩,0,⟨0,2⟩⟩,⟨⟨0,1⟩,2,⟨0,4⟩⟩,⟨⟨0,1⟩,0,⟨0,2⟩⟩,⟨⟨0,1⟩,1,⟨0,3⟩⟩] := by decide +kernel
  have trace : Trace .empty ([] ++ history pulledSource (.new 0 .empty)) a := (Trace.new 0).run ran
  have other : ∀ event ∈ [] ++ history pulledSource (.new 0 .empty), event.connected? ≠ some ⟨0,0⟩ := by
    rw [List.nil_append]
    decide +kernel
  obtain ⟨_,iterators,_⟩ := outlets_agree trace
  obtain ⟨first,t,yields,two,media⟩ :=
    (iterators _ source _ fixed isOpen tail).1 [.video,.audio] (.inl rfl) (by decide) other
  obtain ⟨second,u,fills,many⟩ := (iterators _ mix _ dynamic isOpen last).2 rfl
  rw [describe] at fills
  rw [present] at many
  exact ⟨a,t,u,first,second,ran,told,yields,two,fun id found => media 1 id .audio found rfl (by decide),
    fills,many⟩

end Account
end MediaGraph
