import MediaGraph.Proofs.Aside
import MediaGraph.Proofs.Assembly
import MediaGraph.Proofs.Frozen
import MediaGraph.Proofs.Plans
import MediaGraph.Proofs.Runs

/-! Where the streams of a concatenation go.
The filter reads the pipes segment by segment, each segment in the order of its pads,
and each stream gets the output with the number of its own pad. -/
namespace MediaGraph
open Session

namespace Session

section Outputs
variable {s t : Session} {i : Nat} {op : Operation}

/-- More outputs of one stage, one after the other, and that is all. -/
structure Lengthened (i : Nat) (op : Operation) (count : Nat) (s t : Session) : Prop where
  rest : t = { s with pipes := t.pipes, stages := t.stages, counter := t.counter }
  size : t.stages.size = s.stages.size
  pipes : t.pipes.size = s.pipes.size + count
  stage : ∀ j, j ≠ i → t.stage j = s.stage j
  here : t.stage i =
    { s.stage i with outputs := (s.stage i).outputs ++ (List.range' s.pipes.size count).toArray }
  old : ∀ p, p < s.pipes.size → t.pipe p = s.pipe p
  splitter : ∀ p, (t.pipe p).splitter = (s.pipe p).splitter
  media : ∀ k, k < count →
    (t.pipe (s.pipes.size + k)).media = op.outputs.media ((s.stage i).outputs.size + k)

theorem addOutputs_lengthened (s : Session) (op : Operation) (count : Nat)
    (inside : i < s.stages.size) : Lengthened i op count s (s.addOutputs i op count) := by
  induction count generalizing s with
  | zero =>
    exact ⟨rfl,rfl,rfl,fun _ _ => rfl,by simp [addOutputs],fun _ _ => rfl,fun _ => rfl,
      fun k low => absurd low (Nat.not_lt_zero k)⟩
  | succ count ih =>
    have stages (j : Nat) := stage_addOutput s i op j inside
    have pipes (q : Nat) := pipe_addOutput s i op q
    have size : (s.addOutput i op).pipes.size = s.pipes.size + 1 := Array.size_push ..
    have kept : (s.addOutput i op).stages.size = s.stages.size := Array.size_modify
    have later := ih (s.addOutput i op) (kept ▸ inside)
    have here : (s.addOutput i op).stage i =
        { s.stage i with outputs := (s.stage i).outputs.push s.pipes.size } := by
      rw [stages,if_pos rfl]
    constructor
    case rest => exact later.rest
    case size => exact later.size.trans kept
    case pipes => rw [addOutputs,later.pipes,size,Nat.add_right_comm,Nat.add_assoc]
    case stage =>
      intro j other
      rw [addOutputs,later.stage j other,stages,if_neg other]
    case here =>
      rw [addOutputs,later.here,here,size,List.range'_succ,List.toArray_cons,← Array.append_assoc]
      rfl
    case old =>
      intro p before
      rw [addOutputs,later.old p (by omega),pipes,if_neg (Nat.ne_of_lt before)]
    case splitter =>
      intro p
      rw [addOutputs,later.splitter,pipes]
      split
      next last => simp [pipe,last,Pipe.anonymous]
      next => rfl
    case media =>
      intro k low
      cases k with
      | zero =>
        rw [addOutputs,Nat.add_zero,later.old _ (by omega),pipes,if_pos rfl,Nat.add_zero]
      | succ k =>
        have next := later.media k (by omega)
        rw [size,here,Array.size_push] at next
        rw [addOutputs,Nat.add_succ,← Nat.succ_add,next]
        congr 1
        omega

theorem Lengthened.made {count j : Nat} (longer : Lengthened i op count s t) :
    t.Made j ↔ s.Made j :=
  made_congr longer.splitter j

theorem Lengthened.coloured {count : Nat} (longer : Lengthened i op count s t) : Coloured s t :=
  fun p known => congrArg Pipe.media (longer.old p (inside_of_known known))

theorem addOutputs_succ (s : Session) (op : Operation) (count : Nat) :
    s.addOutputs i op (count + 1) = (s.addOutputs i op count).addOutput i op := by
  induction count generalizing s with
  | zero => rfl
  | succ count ih =>
    rw [addOutputs,ih (s.addOutput i op)]
    rfl

theorem output_fresh {chain : ChainId} {n : Nat} {id : PipeId}
    (holds : s.operationAt chain.index = some op) (bare : (s.stage chain.index).outputs = #[])
    (called : output chain n (s.addOutputs chain.index op n) = .ok id t) :
    id = ⟨s.serial,s.pipes.size + n⟩ ∧ t = s.addOutputs chain.index op (n + 1) := by
  have inside := holds_inside holds
  have made := addOutputs_lengthened s op n inside
  have more := addOutputs_lengthened s op (n + 1) inside
  have serial : (s.addOutputs chain.index op (n + 1)).serial = s.serial := by rw [more.rest]
  have listed : ((s.addOutputs chain.index op n).stage chain.index).outputs.size = n := by
    rw [made.here,bare]
    simp
  have still : (s.addOutputs chain.index op n).operationAt chain.index = some op := by
    rw [← holds,operationAt,made.here,made.rest]
    rfl
  obtain ⟨_,_,p,asked,rfl⟩ := output_ok.mp called
  rcases outputAt_ok.mp asked with ⟨empty,_⟩ | ⟨other,same,⟨q,there,_⟩ | ⟨_,_,_,⟨_,none,_⟩ | made⟩⟩
  · simp [still] at empty
  · rw [Array.getElem?_eq_none (Nat.le_of_eq listed)] at there
    cases there
  · cases none
  · obtain ⟨_,_,rfl,answer⟩ := made
    rw [still] at same
    cases same
    have grown : (s.addOutputs chain.index op n).addOutputs chain.index op
        (n + 1 - ((s.addOutputs chain.index op n).stage chain.index).outputs.size) =
        s.addOutputs chain.index op (n + 1) := by
      rw [listed,Nat.add_sub_cancel_left]
      exact (addOutputs_succ s op n).symm
    rw [grown] at answer ⊢
    rw [more.here,bare] at answer
    refine ⟨?_,rfl⟩
    rw [serial]
    simp at answer
    rw [answer]

theorem outputsFrom_fresh {chain : ChainId} {n count : Nat} {done pipes : Array PipeId}
    (holds : s.operationAt chain.index = some op) (bare : (s.stage chain.index).outputs = #[])
    (called : outputsFrom chain n count done (s.addOutputs chain.index op n) = .ok pipes t) :
    pipes.toList =
        done.toList ++ (List.range' n count).map (fun k => ⟨s.serial,s.pipes.size + k⟩) ∧
      t = s.addOutputs chain.index op (n + count) := by
  induction count generalizing n done with
  | zero =>
    obtain ⟨rfl,rfl⟩ := pure_ok.mp called
    simp
  | succ count ih =>
    obtain ⟨id,v,asked,called⟩ := bind_ok.mp called
    obtain ⟨rfl,rfl⟩ := output_fresh holds bare asked
    obtain ⟨answered,rfl⟩ := ih called
    refine ⟨?_,by rw [Nat.add_assoc,Nat.add_comm 1]⟩
    rw [answered,List.range'_succ]
    simp

theorem takeOutputs_fresh {chain : ChainId} {count : Nat} {pipes : List PipeId}
    (holds : s.operationAt chain.index = some op) (bare : (s.stage chain.index).outputs = #[])
    (called : takeOutputs chain count s = .ok pipes t) :
    pipes = (List.range count).map (fun k => ⟨s.serial,s.pipes.size + k⟩) ∧
      t = s.addOutputs chain.index op count := by
  obtain ⟨answer,_,asked,called⟩ := bind_ok.mp called
  obtain ⟨rfl,rfl⟩ := pure_ok.mp called
  obtain ⟨answered,rfl⟩ := outputsFrom_fresh (n := 0) holds bare asked
  rw [Nat.zero_add]
  exact ⟨by simpa [List.range_eq_range'] using answered,rfl⟩

end Outputs

section Marking
variable {s t v : Session} {media : Media} {u : Unit}

structure Painted (s t : Session) : Prop where
  frozen : Frozen s t
  coloured : Coloured s t

theorem Painted.refl (s : Session) : Painted s s := ⟨.refl s,.refl s⟩

theorem Painted.trans (first : Painted s t) (second : Painted t v) : Painted s v :=
  ⟨first.frozen.trans second.frozen,first.coloured.trans second.coloured⟩

def Uniform (s : Session) (stream : List PipeId) (media : Media) : Prop :=
  (media = .video ∨ media = .audio) ∧ ∀ id ∈ stream, (s.pipe id.index).media = media

theorem Uniform.later {stream : List PipeId} (uniform : s.Uniform stream media)
    (coloured : Coloured s t) : t.Uniform stream media := by
  obtain ⟨kind,all⟩ := uniform
  refine ⟨kind,fun id member => ?_⟩
  have known : (s.pipe id.index).media ≠ .unknown := by
    rw [all id member]
    rcases kind with rfl | rfl <;> decide
  rw [coloured _ known,all id member]

theorem setMedia_painted {id : PipeId} (settled : media ≠ .unknown)
    (called : setMedia id media s = .ok u t) :
    Painted s t ∧ (t.pipe id.index).media = media := by
  simp only [setMedia,bind_ok,pipeIndex_ok,and_assoc,exists_and_left,exists_eq_left] at called
  obtain ⟨_,inside,updated⟩ := called
  obtain ⟨pipe,marked,rfl⟩ := updatePipe_ok.mp updated
  have result : pipe.media = media ∧
      ((s.pipe id.index).media ≠ .unknown → pipe.media = (s.pipe id.index).media) := by
    unfold Pipe.mark at marked
    grind
  refine ⟨⟨.of_pipe id.index (by rw [mark_eq marked]),fun p known => ?_⟩,?_⟩
  · rw [pipe_modifyPipe]
    split
    next same =>
      obtain ⟨rfl,_⟩ := same
      exact result.2 known
    next => rfl
  · rw [pipe_modifyPipe,if_pos ⟨rfl,inside⟩]
    exact result.1

theorem markAll_painted {ids : List PipeId} (kind : media = .video ∨ media = .audio)
    (called : Concat.markAll media ids s = .ok u t) : Painted s t ∧ t.Uniform ids media := by
  have settled : media ≠ .unknown := by rcases kind with rfl | rfl <;> decide
  induction ids generalizing s with
  | nil =>
    obtain ⟨_,rfl⟩ := pure_ok.mp called
    exact ⟨.refl _,kind,by simp⟩
  | cons id rest ih =>
    obtain ⟨_,v,marked,called⟩ := bind_ok.mp called
    obtain ⟨first,here⟩ := setMedia_painted settled marked
    obtain ⟨painted,uniform⟩ := ih called
    refine ⟨first.trans painted,kind,List.forall_mem_cons.mpr ⟨?_,uniform.2⟩⟩
    rw [painted.coloured _ (here ▸ settled),here]

theorem markStream_painted {stream : List PipeId}
    (called : Concat.markStream stream s = .ok media t) :
    Painted s t ∧ t.Uniform stream media := by
  obtain ⟨first,v,found,called⟩ := bind_ok.mp called
  obtain rfl := Account.firstMedia_ok found
  have marked {kind : Media} (known : kind = .video ∨ kind = .audio)
      (rest : (do Concat.markAll kind stream; return kind) v = .ok media t) :
      Painted v t ∧ t.Uniform stream media := by
    obtain ⟨_,w,all,done⟩ := bind_ok.mp rest
    obtain ⟨rfl,rfl⟩ := pure_ok.mp done
    exact markAll_painted known all
  cases first with
  | unknown => simp [bind_ok,get_ok,throw_ok] at called
  | video => exact marked (.inl rfl) called
  | audio => exact marked (.inr rfl) called
  | _ => simp [throw_ok] at called

theorem markStreams_painted {streams : List (List PipeId)} {kinds : List Media}
    (called : Concat.markStreams streams s = .ok kinds t) :
    Painted s t ∧ List.Forall₂ t.Uniform streams kinds := by
  induction streams generalizing s kinds with
  | nil =>
    obtain ⟨rfl,rfl⟩ := pure_ok.mp called
    exact ⟨.refl _,.nil⟩
  | cons stream rest ih =>
    obtain ⟨media,v,marked,called⟩ := bind_ok.mp called
    obtain ⟨others,w,later,done⟩ := bind_ok.mp called
    obtain ⟨rfl,rfl⟩ := pure_ok.mp done
    obtain ⟨first,here⟩ := markStream_painted marked
    obtain ⟨painted,uniform⟩ := ih later
    exact ⟨first.trans painted,.cons (here.later painted.coloured) uniform⟩

end Marking

section Placing
variable {s t v : Session} {op : Operation} {inputs : List PipeId}

structure Placed (op : Operation) (inputs : List PipeId) (s t : Session) : Prop where
  stage : t.stage s.stages.size =
    ⟨some s.operations.size,List.range' s.readers.size inputs.length,#[],none,none⟩
  operation : t.operation s.operations.size = op
  root : s.stages.size ∈ t.roots
  others : ∀ j, s.stages.size < j → j < t.stages.size → t.Made j
  serial : t.serial = s.serial
  coloured : Coloured s t

theorem open_placed {put : List (Nat × Nat)} {took : List Nat} {chain next : ChainId}
    (kept : Ledger.Kept ⟨s,put,took,[]⟩) (outer : ∀ id ∈ inputs, s.OuterPipeId id)
    (started : start inputs s = .ok chain v) (extended : extend chain op v = .ok next t) :
    next = ⟨s.serial,s.stages.size⟩ ∧ Placed op inputs s t := by
  obtain ⟨placed,rfl,known,rfl⟩ := start_plains kept outer started
  let w := s.addChain (inputs.map PipeId.index)
  have keptW := Plains.kept placed kept
  have empty : w.stage s.stages.size =
      ⟨none,List.range' s.readers.size inputs.length,#[],none,none⟩ := by
    simp [w,stage_addChain]
  have operations : w.operations.size = s.operations.size := by simp [w,addChain_eq]
  have stages : w.stages.size = s.stages.size + 1 := by simp [w,addChain_eq]
  obtain ⟨_,_,inside,_,⟨vacant,rfl,resolved⟩ | ⟨full,_⟩⟩ := extend_ok.mp extended
  · refine ⟨rfl,?_⟩
    let given := put ++ numbered s.readers.size (inputs.map PipeId.index)
    have filled := Move.hold w given took s.stages.size op inside vacant
    have held := filled.kept keptW
    have idle (x : Nat) (member : x ∈ (w.stage s.stages.size).inputs) :
        ((w.hold s.stages.size op).reader x).resolved = false :=
      keptW.1.reading.idle_of_vacant vacant member
    have turns := resolveAll_ok held idle resolved
    have steady := Turns.steady turns held
    have aside := Turns.aside turns held
    have toHeld := filled.later keptW.1
    have outerStage := toHeld.stage _ known.2
    have stage : (w.hold s.stages.size op).stage s.stages.size =
        ⟨some s.operations.size,List.range' s.readers.size inputs.length,#[],none,none⟩ := by
      rw [stage_hold,if_pos ⟨rfl,inside⟩,empty,operations]
    have outerOperation := outer_of_holds held.1 outerStage.2 (congrArg Stage.operation stage)
    have later := Moves.later (Turns.moves turns) held
    constructor
    case stage => rw [steady.stage _ outerStage,stage]
    case operation =>
      rw [steady.operation _ outerOperation,operation_hold,if_pos operations.symm]
    case root => exact aside.roots _ (by simp [w,hold,addChain_eq])
    case others =>
      intro j low high
      refine aside.new j ?_ high
      change (w.stages.modify s.stages.size _).size ≤ j
      rw [Array.size_modify,stages]
      exact low
    case coloured => exact Moves.coloured ((Plains.moves placed).trans (.head filled (Turns.moves turns))) kept
    case serial => exact later.serial.trans (toHeld.serial.trans (Plains.later placed kept).serial)
  · exact absurd (congrArg Stage.operation empty) full

end Placing
end Session

namespace Account

theorem Reached.placed {catalog : Catalog} {b : Account} {inputs ids : List PipeId}
    {op : Operation} {chain next : ChainId} {count : Nat} {w x t : Session}
    (reached : Reached catalog b) (known : inputs ⊆ b.pipes)
    (started : start inputs b.session = .ok chain w) (extended : extend chain op w = .ok next x)
    (taken : takeOutputs next count x = .ok ids t) :
    ∃ d, Reached catalog d ∧ d.session = t ∧
      numbered b.session.readers.size (inputs.map PipeId.index) ⊆ d.put := by
  let b₁ := b.after (.start inputs) chain w
  have first : Reached catalog b₁ :=
    .call (.start inputs) chain w reached ⟨fun _ member => known member,by simp [Call.chains],
      by simp [Call.operations]⟩ started
  let b₂ := b₁.after (.extend chain op) next x
  have second : Reached catalog b₂ :=
    .call (.extend chain op) next x first ⟨by simp [Call.pipes],
      by simp [Call.chains,b₁,after,Reply.givenChains],by simp [Call.operations]⟩ extended
  have third : Reached catalog (b₂.after (.takeOutputs next count) ids t) :=
    .call (.takeOutputs next count) ids t second ⟨by simp [Call.pipes],
      by simp [Call.chains,b₂,after,Reply.givenChains],by simp [Call.operations]⟩ taken
  refine ⟨_,third,rfl,fun pair member => ?_⟩
  simp [b₂,b₁,after,Call.put,member]

end Account

namespace Concat

/-- The filter of a concatenation stands at stage `i` of the session of an account, and its
pads carry the streams. -/
structure Wired (c : Concat) (kinds : List Media) (outputs : List PipeId)
    (pad : Equiv.Perm (Fin c.streamCount)) (i : Nat) (b : Account) : Prop where
  uniform : List.Forall₂ b.session.Uniform c.streams kinds
  total : kinds.count .video + kinds.count .audio = c.streamCount
  videosFirst : ∀ s t, kinds[s.val]? = some .video → kinds[t.val]? = some .audio → pad s < pad t
  inOrder : ∀ s t, s < t → kinds[s.val]? = kinds[t.val]? → pad s < pad t
  filter : ∃ op, b.session.operationAt i = some op ∧ op.name = "concat" ∧ op.id = none ∧
    op.args = "n=" ++ toString c.segmentCount ++ ":v=" ++ toString (kinds.count .video) ++
      ":a=" ++ toString (kinds.count .audio)
  alone : i ∈ b.session.roots ∧ (b.session.stage i).prev = none ∧ (b.session.stage i).next = none
  /-- What else was added are splits of the graph. -/
  others : ∀ j, i < j → j < b.session.stages.size → b.session.Made j
  size : (b.session.stage i).inputs.length = c.segmentCount * c.streamCount
  reads : ∀ s g, g < c.segmentCount → ∃ r p,
    (b.session.stage i).inputs[g * c.streamCount + pad s]? = some r ∧
      c.cell s g = some p ∧ (r,p.index) ∈ b.put
  answers : outputs.length = c.streamCount
  served : ∀ s, ∃ q, outputs[s.val]? = some ⟨b.session.serial,q⟩ ∧
    (b.session.stage i).outputs[(pad s).val]? = some q ∧
      kinds[s.val]? = some (b.session.pipe q).media
  distinct : outputs.Nodup

section Filter
variable {c : Concat} {kinds : List Media} {s x : Session} {b : Account}

def answer (kinds : List Media) (serial first : Nat) : List PipeId :=
  byStream (padOrder kinds) ((List.range kinds.length).map fun k => ⟨serial,first + k⟩)

theorem answer_rows (kinds : List Media) (serial first : Nat) :
    (answer kinds serial first).length = kinds.length ∧ ∀ s, s < kinds.length →
      (answer kinds serial first)[s]? = some ⟨serial,first + padOf kinds s⟩ := by
  have full : ((List.range kinds.length).map fun k => (⟨serial,first + k⟩ : PipeId)).length =
      kinds.length := by simp
  obtain ⟨size,found⟩ := byStream_rows full
  refine ⟨size,fun s inside => (found s inside).trans ?_⟩
  simp [padOf_lt inside]

theorem answer_nodup (kinds : List Media) (serial first : Nat) :
    (answer kinds serial first).Nodup := by
  obtain ⟨size,found⟩ := answer_rows kinds serial first
  refine List.nodup_iff_getElem?_ne_getElem?.mpr fun s t before bound same => ?_
  rw [size] at bound
  have inside := Nat.lt_trans before bound
  rw [found s inside,found t bound,Option.some.injEq,PipeId.mk.injEq] at same
  have equal := padOf_injective inside bound (Nat.add_left_cancel same.2)
  exact Nat.ne_of_lt before equal

theorem wired_of_placed (even : Even c) (size : c.streamCount = kinds.length)
    (uniform : List.Forall₂ s.Uniform c.streams kinds)
    (placed : Placed (operation c.segmentCount kinds (padOrder kinds)) (c.inputs (padOrder kinds)) s x)
    (longer : Lengthened s.stages.size (operation c.segmentCount kinds (padOrder kinds))
      kinds.length x b.session)
    (put : numbered s.readers.size ((c.inputs (padOrder kinds)).map PipeId.index) ⊆ b.put) :
    Wired c kinds (answer kinds s.serial x.pipes.size) (padding size) s.stages.size b := by
  obtain ⟨width,rows⟩ := inputs_rows even size.symm
  have stage := longer.here
  rw [placed.stage] at stage
  have coloured := placed.coloured.trans longer.coloured
  have inside (s : Fin c.streamCount) : s.val < kinds.length := size ▸ s.isLt
  have settled : ∀ kind ∈ kinds, kind = .video ∨ kind = .audio := by
    intro kind listed
    obtain ⟨n,bound,rfl⟩ := List.getElem_of_mem listed
    exact (uniform.get (uniform.length_eq ▸ bound) bound).1
  have count := count_kinds settled
  constructor
  case uniform => exact uniform.imp fun _ _ holds => holds.later coloured
  case total => rw [count,size]
  case videosFirst =>
    intro s t video audio
    exact padOf_ahead (inside s) (inside t) (.inl ⟨video,by simp [audio]⟩)
  case inOrder =>
    intro s t before same
    exact padOf_ahead (inside s) (inside t) (.inr ⟨by rw [same],before⟩)
  case filter =>
    refine ⟨operation c.segmentCount kinds (padOrder kinds),?_,rfl,rfl,?_⟩
    · rw [operationAt,stage,Option.map_some,← placed.operation,longer.rest]
      rfl
    · rw [operation_args,← count,Nat.add_sub_cancel_left]
  case alone =>
    rw [stage]
    refine ⟨?_,rfl,rfl⟩
    rw [longer.rest]
    exact placed.root
  case others =>
    intro j low high
    rw [longer.size] at high
    refine longer.made.mpr (placed.others j low high)
  case size => rw [stage,List.length_range',width,size]
  case reads =>
    intro column g row
    obtain ⟨p,found⟩ := even.place column.isLt row
    have listed := inputs_getElem? even size.symm (inside column) row
    have bound := (List.getElem?_eq_some_iff.mp (listed.trans found)).1
    rw [← padding_val size column,← size] at listed bound
    let k := g * c.streamCount + (padding size column).val
    refine ⟨s.readers.size + k,p,?_,found,put (mem_numbered.mpr ⟨k,?_,rfl⟩)⟩
    · rw [stage]
      exact (List.getElem?_range' bound).trans (by rw [Nat.one_mul])
    · rw [List.getElem?_map,listed,found]
      rfl
  case answers => rw [(answer_rows ..).1,size]
  case served =>
    intro column
    have pad := padOf_lt (inside column)
    refine ⟨x.pipes.size + padOf kinds column,?_,?_,?_⟩
    · rw [(answer_rows ..).2 column (inside column),longer.rest]
      exact congrArg some (congrArg (PipeId.mk · _) placed.serial.symm)
    · rw [stage,padding_val size column]
      simp [pad]
    · have media := longer.media _ pad
      rw [placed.stage] at media
      rw [operation_media c.segmentCount (inside column),media]
      simp
  case distinct => exact answer_nodup ..

end Filter

variable {catalog : Catalog} {a : Account} {c done : Concat} {outputs : List PipeId} {t : Session}

open Account in
theorem finalize_wired (even : Even c) (reached : Reached catalog a)
    (known : c.streams.flatten ⊆ a.pipes)
    (called : c.finalize a.session = .ok (done,outputs) t) :
    done.outputs = some outputs ∧ ∃ kinds pad b, Reached catalog b ∧ b.session = t ∧
      Wired c kinds outputs pad a.session.stages.size b := by
  unfold finalize at called
  simp only [even.unfinished,choice_ok,bind_ok,throw_ok,pure_ok,false_and,exists_false,and_false,
    false_or,Prod.mk.injEq] at called
  obtain ⟨filled,kinds,v,marked,first,w,started,chain,x,extended,pads,y,taken,⟨rfl,rfl⟩,rfl⟩ := called
  obtain ⟨b,reachedB,rfl,extendsB⟩ := markStreams_closed (.closed catalog) reached known marked
  obtain ⟨painted,uniform⟩ := markStreams_painted marked
  have consistent := reachedB.consistent
  have size : c.streamCount = kinds.length := uniform.length_eq
  have inputs : c.inputs (padOrder kinds) ⊆ b.pipes :=
    List.Subset.trans (inputs_subset c _) (List.Subset.trans known extendsB.pipes)
  obtain ⟨rfl,placed⟩ := open_placed consistent.kept
    (fun id member => consistent.issued.pipe id (inputs member)) started extended
  have held : x.operationAt b.session.stages.size =
      some (operation c.segmentCount kinds (padOrder kinds)) := by
    rw [operationAt,placed.stage,Option.map_some,placed.operation]
  obtain ⟨d,reachedD,rfl,put⟩ := reachedB.placed inputs started extended taken
  obtain ⟨rfl,grown⟩ := takeOutputs_fresh held (congrArg Stage.outputs placed.stage) taken
  have longer := addOutputs_lengthened x (operation c.segmentCount kinds (padOrder kinds))
    (padOrder kinds).length (holds_inside held)
  rw [← grown,padOrder_length] at longer
  have wired := wired_of_placed even size uniform placed longer put
  rw [padOrder_length,placed.serial,← congrArg Array.size painted.frozen.stages]
  exact ⟨rfl,kinds,padding size,d,reachedD,rfl,wired⟩

theorem finalize_again {s : Session} (answered : done.outputs = some outputs) :
    done.finalize s = .ok (done,outputs) s := by
  unfold finalize
  rw [answered]
  rfl

open Account in
/-- Every stream of a concatenation goes to its own output. No call leaves a gap in the
grid, a call that fails changes nothing, and the filter is placed once. -/
theorem concatenation_wired :
    (∀ c pipes e d, (putStream pipes c = .error e d → d = c) ∧
      (putSegment pipes c = .error e d → d = c)) ∧
    (∀ c pipes,
      putStream pipes c =
        (match c.streamFault pipes with
        | some fault => .error (.structural fault) c
        | none => .ok () (c.withStream pipes)) ∧
      putSegment pipes c =
        (match c.segmentFault pipes with
        | some fault => .error (.structural fault) c
        | none => .ok () (c.withSegment pipes))) ∧
    ∀ c, Assembled c →
      (∀ pipes d, putStream pipes c = .ok () d → ColumnAdded pipes c d) ∧
      (∀ pipes d, putSegment pipes c = .ok () d → RowAdded pipes c d) ∧
      (∀ stream ∈ c.streams, stream.length = c.segmentCount) ∧
      (∀ s g, s < c.streamCount → g < c.segmentCount → ∃ p, c.cell s g = some p) ∧
      ∀ catalog a done outputs t, Reached catalog a → c.streams.flatten ⊆ a.pipes →
        c.finalize a.session = .ok (done,outputs) t →
        (∃ kinds pad b, Reached catalog b ∧ b.session = t ∧
          Wired c kinds outputs pad a.session.stages.size b) ∧
        ∀ s, done.finalize s = .ok (done,outputs) s := by
  refine ⟨fun _ _ _ _ => ⟨putStream_error,putSegment_error⟩,
    fun c pipes => ⟨putStream_eq c pipes,putSegment_eq c pipes⟩,fun c assembled => ?_⟩
  have even := assembled.even
  refine ⟨fun pipes d added => ?_,fun pipes d added => ?_,even.even,
    fun _ _ column row => even.place column row,?_⟩
  · obtain ⟨-,rfl⟩ := putStream_ok.mp added
    exact even.columnAdded
  · obtain ⟨free,rfl⟩ := putSegment_ok.mp added
    exact even.rowAdded free
  · intro catalog a done outputs t reached known called
    obtain ⟨answered,wired⟩ := finalize_wired even reached known called
    exact ⟨wired,fun _ => finalize_again answered⟩

def flipped : List ((reply : Reply) × Call reply) :=
  [⟨_,.inputStream "0:a"⟩,⟨_,.inputStream "0:v"⟩,⟨_,.start [⟨0,1⟩]⟩,⟨_,.extend ⟨0,0⟩ (.named "hflip")⟩,
    ⟨_,.output ⟨0,0⟩ 0⟩]

def firstRow : Concat := empty.left (putSegment [⟨0,0⟩,⟨0,1⟩])

/-- A column beside a row, two calls that fail, and a second row. -/
def soundFirst : Concat :=
  (((firstRow.left (putStream [⟨0,2⟩])).left (putStream [])).left (putSegment [⟨0,0⟩])).left
    (putSegment [⟨0,0⟩,⟨0,2⟩,⟨0,2⟩])

open Account in
theorem concatenation_wired_soundFirst : ∃ c d a done outputs t,
    putStream [⟨0,2⟩] firstRow = .ok () c ∧ ColumnAdded [⟨0,2⟩] firstRow c ∧
      putSegment [⟨0,0⟩,⟨0,2⟩,⟨0,2⟩] c = .ok () d ∧ RowAdded [⟨0,0⟩,⟨0,2⟩,⟨0,2⟩] c d ∧
      d.streams = [[⟨0,0⟩,⟨0,0⟩],[⟨0,1⟩,⟨0,2⟩],[⟨0,2⟩,⟨0,2⟩]] ∧
      run? flipped (.new 0 .empty) = some a ∧ d.finalize a.session = .ok (done,outputs) t ∧
      (∃ kinds pad b, Reached .empty b ∧ b.session = t ∧
        Wired d kinds outputs pad a.session.stages.size b) ∧
      (∀ s, done.finalize s = .ok (done,outputs) s) ∧ outputs = [⟨0,8⟩,⟨0,6⟩,⟨0,7⟩] ∧
      t.render = "[0:v]hflip[_0];[0:v][_1][0:a][_2][_3][0:a]concat='n=2:v=2:a=1'[_4][_5][_6];" ++
        "[_0]split='3'[_1][_2][_3]" := by
  have runs : ((run? flipped (.new 0 .empty)).bind fun a =>
      match soundFirst.finalize a.session with
      | .ok (done,outputs) t =>
        if soundFirst.streams.flatten ⊆ a.pipes ∧ outputs = [⟨0,8⟩,⟨0,6⟩,⟨0,7⟩] ∧
          t.render = "[0:v]hflip[_0];[0:v][_1][0:a][_2][_3][0:a]concat='n=2:v=2:a=1'[_4][_5][_6];" ++
            "[_0]split='3'[_1][_2][_3]"
        then some (a,(done,outputs),t) else none
      | .error _ _ => none).isSome = true := by decide +kernel
  obtain ⟨⟨a,⟨done,outputs⟩,t⟩,found⟩ := Option.isSome_iff_exists.mp runs
  obtain ⟨m,ran,placed⟩ := Option.bind_eq_some_iff.mp found
  cases called : soundFirst.finalize m.session with
  | error e t => simp [called] at placed
  | ok answer u =>
    simp only [called,Option.ite_none_right_eq_some,Option.some.injEq,Prod.mk.injEq] at placed
    obtain ⟨⟨known,order,text⟩,rfl,⟨rfl,rfl⟩,rfl⟩ := placed
    have row : Assembled firstRow := .segment _ .empty
    have column : Assembled (firstRow.left (putStream [⟨0,2⟩])) := .stream _ row
    have assembled : Assembled soundFirst := .segment _ (.segment _ (.stream _ column))
    obtain ⟨-,-,wired⟩ := concatenation_wired
    have ⟨wires,again⟩ := (wired soundFirst assembled).2.2.2.2 .empty m _ _ u
      ((Reached.new 0).run ran) known called
    exact ⟨firstRow.left (putStream [⟨0,2⟩]),soundFirst,m,_,_,u,rfl,(wired firstRow row).1 _ _ rfl,rfl,
      (wired _ column).2.1 _ _ rfl,rfl,ran,called,wires,again,order,text⟩

end Concat
end MediaGraph
