import MediaGraph.Proofs.Steps

/-! When the calls that build chains succeed, and what they leave.
The checks of a call become facts about the session before it; what it does is
one of the steps. -/
namespace MediaGraph.Session

section Checks
variable {s s' : Session}

theorem requireOpen_ok {call : String} {u : Unit} :
    requireOpen call s = .ok u s' ↔ s.completed = false ∧ s' = s := by
  simp only [requireOpen,bind_ok,get_ok,choice_ok,throw_ok,pure_ok]
  grind

theorem pipeIndex_ok {id : PipeId} {i : Nat} :
    pipeIndex id s = .ok i s' ↔
      id.session = s.serial ∧ id.index < s.pipes.size ∧ i = id.index ∧ s' = s := by
  simp only [pipeIndex,bind_ok,get_ok,choice_ok,throw_ok,pure_ok]
  grind

theorem stageIndex_ok {id : ChainId} {i : Nat} :
    stageIndex id s = .ok i s' ↔
      id.session = s.serial ∧ id.index < s.stages.size ∧ i = id.index ∧ s' = s := by
  simp only [stageIndex,bind_ok,get_ok,choice_ok,throw_ok,pure_ok]
  grind

theorem operationIndex_ok {id : OperationId} {i : Nat} :
    operationIndex id s = .ok i s' ↔
      id.session = s.serial ∧ id.index < s.operations.size ∧ i = id.index ∧ s' = s := by
  simp only [operationIndex,bind_ok,get_ok,choice_ok,throw_ok,pure_ok]
  grind

theorem requireTail_ok {i : Nat} {u : Unit} :
    requireTail i s = .ok u s' ↔ (s.stage i).next = none ∧ s' = s := by
  simp only [requireTail,bind_ok,get_ok,choice_ok,throw_ok,pure_ok,and_assoc,exists_and_left,
    exists_eq_left]
  simp

theorem pipeId_ok {i : Nat} {id : PipeId} :
    pipeId i s = .ok id s' ↔ id = ⟨s.serial,i⟩ ∧ s' = s := by
  simp only [pipeId,bind_ok,get_ok,pure_ok]
  grind

theorem chainId_ok {i : Nat} {id : ChainId} :
    chainId i s = .ok id s' ↔ id = ⟨s.serial,i⟩ ∧ s' = s := by
  simp only [chainId,bind_ok,get_ok,pure_ok]
  grind

theorem updatePipe_ok {i : Nat} {f : Pipe → Except GraphError Pipe} {u : Unit} :
    updatePipe i f s = .ok u s' ↔
      ∃ p, f (s.pipe i) = .ok p ∧ s' = s.modifyPipe i fun _ => p := by
  simp only [updatePipe,bind_ok,get_ok,and_assoc,exists_and_left,exists_eq_left]
  cases changed : f (s.pipe i) with
  | ok p => simp [modify_ok]
  | error e => simp [throw_ok]

def Owns (s : Session) (ids : List PipeId) : Prop :=
  ∀ id ∈ ids, id.session = s.serial ∧ id.index < s.pipes.size

theorem pipeIndices_ok {ids : List PipeId} {pipes : List Nat} :
    ids.mapM pipeIndex s = .ok pipes s' ↔
      s.Owns ids ∧ pipes = ids.map PipeId.index ∧ s' = s := by
  induction ids generalizing pipes with
  | nil => simp [pure_ok,Owns]
  | cons id rest ih =>
    simp only [List.mapM_cons,bind_ok,pure_ok,pipeIndex_ok,Owns,List.forall_mem_cons,List.map_cons]
    constructor
    · rintro ⟨i,_,⟨session,inside,rfl,rfl⟩,more,_,found,rfl,rfl⟩
      obtain ⟨owned,rfl,rfl⟩ := ih.mp found
      exact ⟨⟨⟨session,inside⟩,owned⟩,rfl,rfl⟩
    · rintro ⟨⟨⟨session,inside⟩,owned⟩,rfl,rfl⟩
      exact ⟨_,_,⟨session,inside,rfl,rfl⟩,_,_,ih.mpr ⟨owned,rfl,rfl⟩,rfl,rfl⟩

end Checks

section Chains
variable {s s' : Session}

theorem startOn_ok {pipes : List Nat} {chain : ChainId} :
    startOn pipes s = .ok chain s' ↔
      chain = ⟨s.serial,s.stages.size⟩ ∧ s' = s.addChain pipes := by
  simp only [startOn,bind_ok,get_ok,modify_ok,chainId_ok]
  constructor
  · rintro ⟨_,_,⟨rfl,rfl⟩,_,_,rfl,rfl,rfl⟩
    exact ⟨by rw [addChain_eq],rfl⟩
  · rintro ⟨rfl,rfl⟩
    exact ⟨_,_,⟨rfl,rfl⟩,(),_,rfl,by rw [addChain_eq],rfl⟩

theorem start_ok {inputs : List PipeId} {chain : ChainId} :
    start inputs s = .ok chain s' ↔
      s.completed = false ∧ s.Owns inputs ∧ chain = ⟨s.serial,s.stages.size⟩ ∧
        s' = s.addChain (inputs.map PipeId.index) := by
  simp only [start,bind_ok,requireOpen_ok,pipeIndices_ok,startOn_ok]
  grind

theorem extend_ok {chain next : ChainId} {op : Operation} :
    extend chain op s = .ok next s' ↔
      s.completed = false ∧ chain.session = s.serial ∧ chain.index < s.stages.size ∧
        (s.stage chain.index).next = none ∧
        (((s.stage chain.index).operation = none ∧ next = chain ∧
            resolveAll (s.stage chain.index).inputs (s.hold chain.index op) = .ok () s') ∨
          ((s.stage chain.index).operation ≠ none ∧ (s.stage chain.index).outputs = #[] ∧
            next = ⟨s.serial,s.stages.size⟩ ∧ s' = s.append chain.index op)) := by
  simp only [extend,bind_ok,requireOpen_ok,stageIndex_ok,requireTail_ok,get_ok,choice_ok,modify_ok,
    pure_ok,throw_ok,chainId_ok,and_assoc,exists_and_left,exists_eq_left,exists_const,
    Option.isNone_iff_eq_none,Bool.not_eq_true',Bool.not_eq_false,Array.isEmpty_iff,and_false,
    false_or]
  constructor
  · rintro ⟨isOpen,session,inside,tail,⟨empty,_,_,resolved,rfl,rfl⟩ | ⟨full,bare,rfl,rfl⟩⟩
    · exact ⟨isOpen,session,inside,tail,Or.inl ⟨empty,rfl,resolved⟩⟩
    · exact ⟨isOpen,session,inside,tail,Or.inr ⟨full,bare,rfl,rfl⟩⟩
  · rintro ⟨isOpen,session,inside,tail,⟨empty,rfl,resolved⟩ | ⟨full,bare,rfl,rfl⟩⟩
    · exact ⟨isOpen,session,inside,tail,Or.inl ⟨empty,(),_,resolved,rfl,rfl⟩⟩
    · exact ⟨isOpen,session,inside,tail,Or.inr ⟨full,bare,rfl,rfl⟩⟩

theorem feedAll_ok {pipes : List Nat} {u : Unit} (inside : ∀ p ∈ pipes, p < s.pipes.size) :
    feedAll pipes s = .ok u s' ↔
      pipes.Nodup ∧ (∀ p ∈ pipes, (s.pipe p).fed = false) ∧ s' = s.feedPipes pipes := by
  induction pipes generalizing s with
  | nil => simp [feedAll,feedPipes,pure_ok]
  | cons p rest ih =>
    have size : (s.modifyPipe p fun pipe => { pipe with fed := true }).pipes.size = s.pipes.size :=
      Array.size_modify
    have later := ih (s := s.modifyPipe p fun pipe => { pipe with fed := true })
      (fun q member => size ▸ inside q (by simp [member]))
    have bound := inside p (by simp)
    have same : (s.modifyPipe p fun _ => { s.pipe p with fed := true }) =
        s.modifyPipe p fun pipe => { pipe with fed := true } := by
      simp only [modifyPipe]
      rw [modify_congr s.pipes _ (fun pipe => { pipe with fed := true }) (Pipe.anonymous "") p rfl]
    simp only [feedAll,bind_ok,updatePipe_ok,feedPipes,List.nodup_cons,List.forall_mem_cons]
    constructor
    · rintro ⟨_,_,⟨pipe,fed,rfl⟩,done⟩
      have free : (s.pipe p).fed = false := by
        cases already : (s.pipe p).fed <;> simp [Pipe.feed,already] at fed ⊢
      simp only [Pipe.feed,free,Bool.false_eq_true,if_false,Except.ok.injEq] at fed
      subst fed
      rw [same] at done
      obtain ⟨distinct,unfed,rfl⟩ := later.mp done
      have apart : p ∉ rest := by
        intro member
        have fed := unfed p member
        rw [pipe_modifyPipe,if_pos ⟨rfl,bound⟩] at fed
        simp at fed
      refine ⟨⟨apart,distinct⟩,⟨free,fun q member => ?_⟩,rfl⟩
      have fed := unfed q member
      have other : q ≠ p := fun same => apart (same ▸ member)
      simpa [pipe_modifyPipe,other] using fed
    · rintro ⟨⟨apart,distinct⟩,⟨free,unfed⟩,rfl⟩
      refine ⟨(),_,⟨{ s.pipe p with fed := true },by simp [Pipe.feed,free],rfl⟩,?_⟩
      rw [same]
      refine later.mpr ⟨distinct,fun q member => ?_,rfl⟩
      have other : q ≠ p := fun same => apart (same ▸ member)
      simpa [pipe_modifyPipe,other] using unfed q member

theorem connect_ok {chain : ChainId} {outputs : List PipeId} {u : Unit} :
    connect chain outputs s = .ok u s' ↔
      s.completed = false ∧ chain.session = s.serial ∧ chain.index < s.stages.size ∧
        (s.stage chain.index).operation ≠ none ∧ (s.stage chain.index).next = none ∧
        (s.stage chain.index).outputs = #[] ∧ s.Owns outputs ∧
        (outputs.map PipeId.index).Nodup ∧
        (∀ p ∈ outputs.map PipeId.index, (s.pipe p).fed = false) ∧
        s' = s.putOutputs chain.index (outputs.map PipeId.index) := by
  have bounds : s.Owns outputs → ∀ p ∈ outputs.map PipeId.index, p < s.pipes.size := by
    intro owned p member
    obtain ⟨id,present,rfl⟩ := List.mem_map.mp member
    exact (owned id present).2
  simp only [connect,bind_ok,requireOpen_ok,stageIndex_ok,requireTail_ok,get_ok,choice_ok,
    throw_ok,pipeIndices_ok,modify_ok,and_assoc,exists_and_left,exists_eq_left,exists_const,
    Option.isNone_iff_eq_none,Bool.not_eq_true',Bool.not_eq_false,Array.isEmpty_iff,and_false,
    false_and,exists_false,false_or]
  constructor
  · rintro ⟨isOpen,session,inside,full,tail,bare,owned,_,_,fed,rfl⟩
    obtain ⟨distinct,unfed,rfl⟩ := (feedAll_ok (bounds owned)).mp fed
    exact ⟨isOpen,session,inside,full,tail,bare,owned,distinct,unfed,rfl⟩
  · rintro ⟨isOpen,session,inside,full,tail,bare,owned,distinct,unfed,rfl⟩
    exact ⟨isOpen,session,inside,full,tail,bare,owned,(),_,
      (feedAll_ok (bounds owned)).mpr ⟨distinct,unfed,rfl⟩,rfl⟩

theorem link_ok {source target : ChainId} {u : Unit} :
    link source target s = .ok u s' ↔
      s.completed = false ∧ source.session = s.serial ∧ source.index < s.stages.size ∧
        target.session = s.serial ∧ target.index < s.stages.size ∧
        (s.stage source.index).operation ≠ none ∧ (s.stage source.index).next = none ∧
        (s.stage source.index).outputs = #[] ∧
        source.index ∉ s.sequence (s.head target.index) ∧
        s' = s.splice source.index (s.head target.index) := by
  simp only [link,bind_ok,requireOpen_ok,stageIndex_ok,requireTail_ok,get_ok,choice_ok,
    throw_ok,modify_ok,and_assoc,exists_and_left,exists_eq_left,exists_const,
    Option.isNone_iff_eq_none,Bool.not_eq_true',Bool.not_eq_false,Array.isEmpty_iff,and_false,
    false_and,exists_false,false_or,List.contains_iff_mem]
  rfl

end Chains

section Outputs
variable {s s' : Session}

/-- The outputs that are asked for are there, or are made, or are not declared;
a placeholder answers with its inputs. -/
theorem outputAt_ok {i n : Nat} {answer : Option Nat} :
    outputAt i n s = .ok answer s' ↔
      (s.operationAt i = none ∧ answer = (s.inputPipes i)[n]? ∧ s' = s) ∨
      ∃ op, s.operationAt i = some op ∧
        ((∃ p, (s.stage i).outputs[n]? = some p ∧ answer = some p ∧ s' = s) ∨
          ((s.stage i).outputs[n]? = none ∧ s.completed = false ∧ (s.stage i).next = none ∧
            ((op.outputs.lacks n ∧ answer = none ∧ s' = s) ∨
              (op.outputs.lacks n = false ∧ n < outputLimit ∧
                s' = s.addOutputs i op (n + 1 - (s.stage i).outputs.size) ∧
                answer = (s'.stage i).outputs[n]?)))) := by
  simp only [outputAt,bind_ok,get_ok,and_assoc,exists_and_left,exists_eq_left]
  cases held : s.operationAt i with
  | none => simp [pure_ok]
  | some op =>
    cases there : (s.stage i).outputs[n]? with
    | some p => simp [pure_ok]
    | none =>
      simp only [bind_ok,requireOpen_ok,requireTail_ok,choice_ok,pure_ok,throw_ok,modify_ok,
        get_ok,and_assoc,exists_and_left,exists_eq_left,exists_const,false_and,exists_false,
        and_false,false_or,Nat.not_le,ge_iff_le,Bool.not_eq_true,reduceCtorEq,Option.some.injEq,
        exists_eq_left',true_and]
      grind

theorem outputIndex_ok {i n p : Nat} :
    outputIndex i n s = .ok p s' ↔ outputAt i n s = .ok (some p) s' := by
  simp only [outputIndex,bind_ok]
  constructor
  · rintro ⟨answer,t,found,h⟩
    cases answer with
    | some q =>
      obtain ⟨rfl,rfl⟩ := pure_ok.mp h
      exact found
    | none =>
      simp only [bind_ok,get_ok,and_assoc,exists_and_left,exists_eq_left] at h
      cases held : t.operationAt i with
      | some op => simp [held,throw_ok] at h
      | none => simp [held,throw_ok] at h
  · intro found
    exact ⟨_,_,found,pure_ok.mpr ⟨rfl,rfl⟩⟩

theorem output_ok {chain : ChainId} {n : Nat} {id : PipeId} :
    output chain n s = .ok id s' ↔
      chain.session = s.serial ∧ chain.index < s.stages.size ∧
        ∃ p, outputAt chain.index n s = .ok (some p) s' ∧ id = ⟨s'.serial,p⟩ := by
  simp only [output,bind_ok,stageIndex_ok,outputIndex_ok,pipeId_ok]
  grind

end Outputs
end MediaGraph.Session
