import MediaGraph.Proofs.Lasting
import MediaGraph.Proofs.Refusals
import MediaGraph.Proofs.Traces

/-! Which pipes the pads of a chain are answered with.
Outputs can be asked for one by one, several at once or by iteration, and can be put on pads by the
caller. Whatever way a pad was asked for, its pipe is the one on the pad, and pads keep their pipes. -/
namespace MediaGraph

structure Outlet where
  chain : ChainId
  pad : Nat
  pipe : PipeId
  deriving DecidableEq

def outletsFrom (chain : ChainId) (pad : Nat) (pipes : List PipeId) : List Outlet :=
  (pipes.zipIdx pad).map fun (pipe,pad) => ⟨chain,pad,pipe⟩

/-- What a call tells of the pads of a chain that holds an operation. -/
def Event.outlets : Event → List Outlet
  | ⟨_,.connect chain pipes,_,_⟩ => outletsFrom chain 0 pipes
  | ⟨_,.output chain pad,s,pipe⟩ =>
    if (s.operationAt chain.index).isSome then outletsFrom chain pad [pipe] else []
  | ⟨_,.takeOutputs chain _,s,pipes⟩ =>
    if (s.operationAt chain.index).isSome then outletsFrom chain 0 pipes else []
  | ⟨_,.iterate chain _,s,answer⟩ =>
    if (s.operationAt chain.index).isSome then outletsFrom chain 0 answer.pipes else []
  | _ => []

theorem mem_outletsFrom {chain : ChainId} {pad : Nat} {pipes : List PipeId} {outlet : Outlet} :
    outlet ∈ outletsFrom chain pad pipes ↔
      ∃ k, pipes[k]? = some outlet.pipe ∧ outlet.chain = chain ∧ outlet.pad = pad + k := by
  rw [outletsFrom,List.mem_map]
  constructor
  · rintro ⟨⟨pipe,n⟩,member,rfl⟩
    obtain ⟨k,found⟩ := List.mem_iff_getElem?.mp member
    rw [List.getElem?_zipIdx,Option.map_eq_some_iff] at found
    obtain ⟨_,there,same⟩ := found
    cases same
    exact ⟨k,there,rfl,rfl⟩
  · rintro ⟨k,there,rfl,same⟩
    refine ⟨(outlet.pipe,outlet.pad),List.mem_iff_getElem?.mpr ⟨k,?_⟩,rfl⟩
    rw [List.getElem?_zipIdx,there,same]
    rfl

namespace Session
variable {s t : Session} {chain : ChainId}

structure OnPad (s : Session) (outlet : Outlet) : Prop where
  chain : outlet.chain.session = s.serial
  pipe : outlet.pipe.session = s.serial
  pad : (s.stage outlet.chain.index).outputs[outlet.pad]? = some outlet.pipe.index

def OnPads (s : Session) (chain : ChainId) (pipes : List PipeId) : Prop :=
  ∀ k id, pipes[k]? = some id → s.OnPad ⟨chain,k,id⟩

theorem OnPad.later {outlet : Outlet} (here : s.OnPad outlet) (lasts : Lasts s t)
    (serial : t.serial = s.serial) : t.OnPad outlet where
  chain := here.chain.trans serial.symm
  pipe := here.pipe.trans serial.symm
  pad := lasts _ _ _ here.pad

theorem OnPads.later {pipes : List PipeId} (here : s.OnPads chain pipes)
    (grown : Relation.ReflTransGen Growth s t) : t.OnPads chain pipes :=
  fun k id found => (here k id found).later (lasts_of_growth grown) (serial_of_growth grown)

theorem OnPads.push {pipes : List PipeId} {id : PipeId} (here : s.OnPads chain pipes)
    (next : s.OnPad ⟨chain,pipes.length,id⟩) : s.OnPads chain (pipes ++ [id]) := by
  intro k other found
  rcases Nat.lt_trichotomy k pipes.length with before | rfl | after
  · rw [List.getElem?_append_left before] at found
    exact here k other found
  · rw [List.getElem?_concat_length] at found
    exact Option.some.inj found ▸ next
  · rw [List.getElem?_eq_none (by rw [List.length_append]; exact after)] at found
    cases found

theorem OnPad.iff {x y : Outlet} (sound : Sound s []) (first : s.OnPad x) (second : s.OnPad y) :
    x.pipe = y.pipe ↔ x.chain = y.chain ∧ x.pad = y.pad := by
  constructor
  · intro same
    have shared : (s.stage y.chain.index).outputs[y.pad]? = some x.pipe.index := by
      rw [same]
      exact second.pad
    have stages := sound.feeding.unique _ _ _ (Array.mem_of_getElem? first.pad)
      (Array.mem_of_getElem? shared)
    have chains : x.chain = y.chain := by
      have sessions := first.chain.trans second.chain.symm
      cases hx : x.chain
      cases hy : y.chain
      simp_all
    refine ⟨chains,?_⟩
    have here := first.pad
    rw [chains,← Array.getElem?_toList] at here
    rw [← Array.getElem?_toList] at shared
    have bound := (List.getElem?_eq_some_iff.mp here).1
    exact (List.getElem?_inj bound (sound.feeding.distinct _)).mp (here.trans shared.symm)
  · rintro ⟨chains,pads⟩
    have index := first.pad
    rw [chains,pads,second.pad] at index
    have sessions := first.pipe.trans second.pipe.symm
    cases hx : x.pipe
    cases hy : y.pipe
    simp_all

section Asking
variable {i n : Nat}

theorem outputAt_onPad {p : Nat} (holds : (s.stage i).operation ≠ none)
    (called : outputAt i n s = .ok (some p) t) : (t.stage i).outputs[n]? = some p := by
  rcases outputAt_ok.mp called with ⟨empty,_⟩ | ⟨op,_,⟨q,there,same,rfl⟩ | ⟨_,_,_,⟨_,none,_⟩ | made⟩⟩
  · exact absurd (by simpa [operationAt] using empty) holds
  · exact there.trans same.symm
  · cases none
  · exact made.2.2.2.symm

theorem output_onPad {id : PipeId} (holds : (s.stage chain.index).operation ≠ none)
    (called : output chain n s = .ok id t) : t.OnPad ⟨chain,n,id⟩ := by
  have grown := output_does.ok called
  obtain ⟨own,_,p,asked,rfl⟩ := output_ok.mp called
  exact ⟨own.trans (serial_of_growth grown).symm,rfl,outputAt_onPad holds asked⟩

theorem still_holds (grown : Relation.ReflTransGen Growth s t) (holds : (s.stage i).operation ≠ none) :
    (t.stage i).operation ≠ none := by
  obtain ⟨o,held⟩ := Option.ne_none_iff_exists'.mp holds
  simp [holds_of_growth grown held]

theorem no_pads (s : Session) (chain : ChainId) : s.OnPads chain (#[] : Array PipeId).toList := by
  simp [OnPads]

theorem outputsFrom_onPads {count : Nat} {done pipes : Array PipeId}
    (holds : (s.stage chain.index).operation ≠ none) (before : s.OnPads chain done.toList)
    (size : done.size = n) (called : outputsFrom chain n count done s = .ok pipes t) :
    t.OnPads chain pipes.toList := by
  induction count generalizing s n done with
  | zero =>
    obtain ⟨rfl,rfl⟩ := pure_ok.mp called
    exact before
  | succ count ih =>
    obtain ⟨id,v,asked,called⟩ := bind_ok.mp called
    have grown := output_does.ok asked
    refine ih (still_holds grown holds) ?_ (by rw [Array.size_push,size]) called
    rw [Array.toList_push]
    refine (before.later grown).push ?_
    rw [Array.length_toList,size]
    exact output_onPad holds asked

theorem pull_onPads {pulls : Nat} {done : Array PipeId} {answer : Iteration}
    (own : chain.session = s.serial) (holds : (s.stage chain.index).operation ≠ none)
    (before : s.OnPads chain done.toList) (size : done.size = n)
    (called : pull chain.index n pulls done s = .ok answer t) : t.OnPads chain answer.pipes := by
  induction pulls generalizing s n done with
  | zero =>
    obtain ⟨rfl,rfl⟩ := pure_ok.mp called
    exact before
  | succ pulls ih =>
    obtain ⟨found,v,asked,rest⟩ := bind_ok.mp called
    rcases caught_ok.mp asked with ⟨there,succeeded,rfl⟩ | ⟨e,failed,rfl⟩
    · have grown := outputAt_does.ok succeeded
      cases there with
      | none =>
        obtain ⟨rfl,rfl⟩ := pure_ok.mp rest
        exact before.later grown
      | some p =>
        obtain ⟨id,w,made,rest⟩ := bind_ok.mp rest
        obtain ⟨rfl,rfl⟩ := pipeId_ok.mp made
        have serial := serial_of_growth grown
        refine ih (own.trans serial.symm) (still_holds grown holds) ?_ (by rw [Array.size_push,size]) rest
        rw [Array.toList_push]
        refine (before.later grown).push ⟨own.trans serial.symm,rfl,?_⟩
        rw [Array.length_toList,size]
        exact outputAt_onPad holds succeeded
    · obtain ⟨rfl,_⟩ := outputAt_error failed
      obtain ⟨rfl,rfl⟩ := pure_ok.mp rest
      exact before

theorem iterate_onPads {limit : Option Nat} {answer : Iteration}
    (holds : (s.stage chain.index).operation ≠ none)
    (called : iterate chain limit s = .ok answer t) : t.OnPads chain answer.pipes := by
  simp only [iterate,bind_ok,stageIndex_ok,get_ok,and_assoc,exists_and_left,exists_eq_left] at called
  obtain ⟨own,_,pulled⟩ := called
  exact pull_onPads own holds (no_pads s chain) rfl pulled

theorem takeOutputs_onPads {count : Nat} {pipes : List PipeId}
    (holds : (s.stage chain.index).operation ≠ none)
    (called : takeOutputs chain count s = .ok pipes t) : t.OnPads chain pipes := by
  obtain ⟨answer,_,asked,called⟩ := bind_ok.mp called
  obtain ⟨rfl,rfl⟩ := pure_ok.mp called
  exact outputsFrom_onPads holds (no_pads s chain) rfl asked

theorem connect_onPads {pipes : List PipeId} {u : Unit} (called : connect chain pipes s = .ok u t) :
    t.OnPads chain pipes := by
  obtain ⟨_,own,_,holds,_,_,owned,_,_,rfl⟩ := connect_ok.mp called
  obtain ⟨_,_,record⟩ := putOutputs_eq s chain.index (pipes.map PipeId.index)
  have serial : (s.putOutputs chain.index (pipes.map PipeId.index)).serial = s.serial := by rw [record]
  intro k id found
  refine ⟨own.trans serial.symm,(owned id (List.mem_of_getElem? found)).1.trans serial.symm,?_⟩
  rw [stage_putOutputs s chain.index _ _ (inside_of_holds holds),if_pos rfl]
  simp [found]

end Asking

theorem OnPads.of_told {pipes : List PipeId} (here : s.OnPads chain pipes) {outlet : Outlet}
    (told : outlet ∈ outletsFrom chain 0 pipes) : s.OnPad outlet := by
  obtain ⟨k,found,rfl,pad⟩ := mem_outletsFrom.mp told
  have next := here k outlet.pipe found
  rwa [← Nat.zero_add k,← pad] at next

theorem event_onPad {reply : Reply} {c : Call reply} {answer : reply.Value}
    (called : perform c s = .ok answer t) {outlet : Outlet}
    (told : outlet ∈ Event.outlets ⟨reply,c,s,answer⟩) : t.OnPad outlet := by
  have working {i : Nat} (some : (s.operationAt i).isSome = true) : (s.stage i).operation ≠ none := by
    intro none
    simp [operationAt,none] at some
  cases c with
  | connect chain pipes => exact (connect_onPads called).of_told told
  | output chain pad =>
    simp only [Event.outlets] at told
    split at told
    next some =>
      obtain rfl : outlet = ⟨chain,pad,answer⟩ := List.mem_singleton.mp told
      exact output_onPad (working some) called
    next => simp at told
  | takeOutputs chain count =>
    simp only [Event.outlets] at told
    split at told
    next some => exact (takeOutputs_onPads (working some) called).of_told told
    next => simp at told
  | iterate chain limit =>
    simp only [Event.outlets] at told
    split at told
    next some => exact (iterate_onPads (working some) called).of_told told
    next => simp at told
  | _ => simp [Event.outlets] at told

end Session

namespace Account
open Session

/-- What was told of pads stays so. -/
theorem Trace.onPad {catalog : Catalog} {events : List Event} {a : Account}
    (trace : Trace catalog events a) {outlet : Outlet} (told : outlet ∈ events.flatMap Event.outlets) :
    a.session.OnPad outlet := by
  induction trace with
  | new => simp at told
  | @call events a reply c answer t trace known answered ih =>
    rw [List.flatMap_append,List.mem_append] at told
    rcases told with before | now
    · have lasts := lasts_of_changes ((perform_does c).ok answered)
      exact (ih before).later lasts (trace.reached.consistent.later known answered).serial
    · exact event_onPad answered (by simpa using now)

end Account
end MediaGraph
