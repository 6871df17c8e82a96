import MediaGraph.Concat
import MediaGraph.Proofs.Growth
import MediaGraph.Script.Build

/-! What programs do to a session.
Beside growing, a graph gets pipes that nothing feeds, has its chains put behind each
other and is closed; nothing else happens, whatever is called with whatever handles. -/
namespace MediaGraph.Session
open Relation

inductive Change : Session → Session → Prop
  | growth {s t} (growth : Growth s t) : Change s t
  | pipe {s t} (isOpen : s.completed = false) (stages : t.stages = s.stages)
      (roots : t.roots = s.roots) (catalog : t.catalog = s.catalog)
      (operations : t.operations = s.operations) (pipes : s.pipes.size ≤ t.pipes.size) : Change s t
  | splice {s} (a b) (isOpen : s.completed = false) (insideA : a < s.stages.size)
      (insideB : b < s.stages.size) (holds : (s.stage a).operation ≠ none)
      (tail : (s.stage a).next = none) (bare : (s.stage a).outputs = #[])
      (apart : a ∉ s.sequence (s.head b)) : Change s (s.splice a (s.head b))
  | close {s} (isOpen : s.completed = false) : Change s s.close

theorem Does.changes {α : Type} {s : Session} {x : Build α} (does : Does Growth x s) :
    Does Change x s := ReflTransGen.mono (fun _ _ => Change.growth) _ _ does

/-! Settling media is marking pipes one after the other, whatever kind of steps that takes. -/

section Marking
variable {s : Session} {step : Session → Session → Prop}

theorem leaves_lookUp (id : PipeId) : leaves (lookUp id) s = s :=
  leaves_check (leaves_pipeIndex id) fun _ _ => rfl

theorem leaves_firstMedia (ids : List PipeId) : leaves (Concat.firstMedia ids) s = s := by
  induction ids with
  | nil => rfl
  | cons id rest ih =>
    refine leaves_check (leaves_lookUp id) fun _ _ => ?_
    split
    · exact ih
    · rfl

variable (marks : ∀ i media s, Does step (updatePipe i fun p => p.mark media) s)
include marks

theorem Does.of_setMedia (id : PipeId) (media : Media) (s : Session) :
    Does step (setMedia id media) s :=
  .of_check (leaves_pipeIndex id) fun i _ => marks i media s

theorem Does.of_markInputs (pairs : List (PipeId × Media)) (s : Session) :
    Does step (markInputs pairs) s := by
  induction pairs generalizing s with
  | nil => exact .of_pure _
  | cons pair rest ih => exact .of_bind (.of_setMedia marks ..) fun _ _ _ => ih _

theorem Does.of_markAll (media : Media) (ids : List PipeId) (s : Session) :
    Does step (Concat.markAll media ids) s := by
  induction ids generalizing s with
  | nil => exact .of_pure _
  | cons id rest ih => exact .of_bind (.of_setMedia marks ..) fun _ _ _ => ih _

theorem Does.of_markStream (ids : List PipeId) (s : Session) :
    Does step (Concat.markStream ids) s := by
  refine .of_check (leaves_firstMedia ids) fun media _ => ?_
  cases media with
  | unknown => exact .of_get (.of_throw _)
  | video => exact .of_bind (.of_markAll marks ..) fun _ _ _ => .of_pure _
  | audio => exact .of_bind (.of_markAll marks ..) fun _ _ _ => .of_pure _
  | _ => exact .of_throw _

theorem Does.of_markStreams (streams : List (List PipeId)) (s : Session) :
    Does step (Concat.markStreams streams) s := by
  induction streams generalizing s with
  | nil => exact .of_pure _
  | cons stream rest ih =>
    exact .of_bind (.of_markStream marks ..) fun _ _ _ => .of_bind (ih _) fun _ _ _ => .of_pure _

end Marking

section Calls
variable {s : Session}

theorem stage_feedAll {pipes : List Nat} {t : Session} {u : Unit}
    (called : feedAll pipes s = .ok u t) (i : Nat) : t.stage i = s.stage i := by
  induction pipes generalizing s with
  | nil => rw [(pure_ok.mp called).2]
  | cons p rest ih =>
    obtain ⟨_,v,updated,called⟩ := bind_ok.mp called
    obtain ⟨q,_,rfl⟩ := updatePipe_ok.mp updated
    exact (ih called).trans rfl

theorem connect_does {chain : ChainId} {outputs : List PipeId} :
    Does Growth (connect chain outputs) s := by
  refine .of_guard fun isOpen => .of_check (leaves_stageIndex chain) fun i _ => .of_get ?_
  refine .of_branch (fun _ => .of_raise) fun full => ?_
  refine .of_check (leaves_requireTail i) fun _ last => ?_
  refine .of_branch (fun _ => .of_raise) fun bare => ?_
  refine .of_check (leaves_pipeIndices outputs) fun pipes found => ?_
  have holds : (s.stage i).operation ≠ none := by simpa using full
  have bare : (s.stage i).outputs = #[] := by simpa using bare
  obtain ⟨tail,_⟩ := requireTail_ok.mp last
  obtain ⟨owned,rfl,_⟩ := pipeIndices_ok.mp found
  have inside : ∀ p ∈ outputs.map PipeId.index, p < s.pipes.size := by
    intro p member
    obtain ⟨id,given,rfl⟩ := List.mem_map.mp member
    exact (owned id given).2
  refine .of_step isOpen (feedAll_does isOpen) fun _ t fed opened => .of_modify (.single ?_)
  have stage : t.stage i = s.stage i := stage_feedAll fed i
  obtain ⟨distinct,_,rfl⟩ := (feedAll_ok inside).mp fed
  obtain ⟨_,size,same⟩ := feedPipes_eq s (outputs.map PipeId.index)
  refine .connect i _ opened (stage ▸ holds) (stage ▸ tail) (stage ▸ bare) distinct ?_
  rw [same]
  simpa [size] using inside

theorem fork_does {chain : ChainId} {count : Nat} : Does Growth (fork chain count) s := by
  refine .of_guard fun isOpen => .of_check (leaves_stageIndex chain) fun i _ => ?_
  refine .of_check (leaves_requireTail i) fun _ _ => .of_get (.of_branch (fun _ => ?_) fun _ => ?_)
  · exact .of_branch (fun _ => .of_raise) fun _ => startOn_does isOpen
  · exact .of_bind takeOutputs_does fun _ _ _ => start_does

theorem setMedia_does {id : PipeId} {media : Media} : Does Growth (setMedia id media) s :=
  .of_setMedia (fun _ _ _ => mark_does) ..

theorem setHint_does {id : PipeId} {hint : String} : Does Growth (setHint id hint) s :=
  .of_check (leaves_pipeIndex id) fun i _ => .of_modify (.single (.paint (.of_pipe i rfl)))

theorem inputStream_does {spec : String} : Does Growth (inputStream spec) s := by
  refine .of_guard fun isOpen => .of_get ?_
  split
  next => exact .of_same rfl
  next =>
    exact .of_change (.tables isOpen (.of_stream rfl)) (.of_same rfl)

theorem rename_does {id : PipeId} {name : String} : Does Growth (rename id name) s :=
  .of_guard fun isOpen => .of_check (leaves_pipeIndex id) fun _ _ => renameAt_does isOpen

theorem setArguments_does {id : OperationId} {args : List Argument} :
    Does Growth (setArguments id args) s :=
  .of_guard fun isOpen => .of_check (leaves_operationIndex id) fun _ _ =>
    .of_modify (.single (.tables isOpen (.of_arguments ..)))

theorem leaves_filter (name : String) : leaves (filter name) s = s := by
  refine leaves_check rfl fun t _ => ?_
  split <;> rfl

theorem markInputs_does {pairs : List (PipeId × Media)} : Does Growth (markInputs pairs) s :=
  .of_markInputs (fun _ _ _ => mark_does) ..

theorem place_does {inputs : List PipeId} {op : Operation} : Does Growth (place inputs op) s := by
  refine .of_guard fun _ => .of_get ?_
  split
  · exact .of_bind markInputs_does fun _ _ _ => .of_bind start_does fun _ _ _ => extend_does
  · exact .of_bind start_does fun _ _ _ => extend_does

theorem apply_does {name : String} {inputs : List PipeId} {args : List Argument} :
    Does Growth (apply name inputs args) s :=
  .of_guard fun _ => .of_check (leaves_filter name) fun _ _ => place_does

theorem leaves_helper (h : Helper) (p : Pipe) : leaves (helper h p) s = s := by
  unfold helper
  split <;> rfl

theorem splitChain_does {id : PipeId} {count : Nat} : Does Growth (splitChain id count) s :=
  .of_guard fun _ => .of_get (.of_check (leaves_pipeIndex id) fun _ _ =>
    .of_check (leaves_helper _ _) fun _ _ => .of_bind start_does fun _ _ _ => extend_does)

theorem split_does {id : PipeId} {count : Nat} : Does Growth (split id count) s :=
  .of_bind splitChain_does fun _ _ _ => takeOutputs_does

theorem discard_does {id : PipeId} : Does Growth (discard id) s :=
  .of_guard fun _ => .of_get (.of_check (leaves_pipeIndex id) fun _ _ =>
    .of_check (leaves_helper _ _) fun _ _ => .of_bind start_does fun _ _ _ => extend_does)

/-! Completing a graph, as far as it gets. -/

theorem passThrough_does {p : Nat} : Does Growth (passThrough p) s := by
  refine .of_get (.of_check (leaves_helper _ _) fun _ _ => .of_check rfl fun _ _ => ?_)
  refine .of_bind start_does fun _ _ _ => .of_bind extend_does fun _ _ _ => ?_
  exact .of_bind output_does fun _ _ _ => .of_get (.of_bind mark_does fun _ _ _ => .of_pure _)

theorem exportTarget_does {name : String} {p : Nat} (isOpen : s.completed = false) :
    Does Growth (exportTarget name p) s := by
  refine .of_get (.of_branch (fun _ => .of_pure _) fun _ => .of_branch (fun _ => ?_) fun _ => ?_)
  · exact .of_step isOpen passThrough_does fun _ _ _ opened =>
      .of_bind (renameAt_does opened) fun _ _ _ => .of_pure _
  · exact .of_bind (renameAt_does isOpen) fun _ _ _ => .of_pure _

theorem exportPipe_does {name : String} {id : PipeId} (isOpen : s.completed = false) :
    Does Growth (exportPipe name id) s := by
  refine .of_check (leaves_pipeIndex id) fun p _ => ?_
  refine .of_step isOpen (exportTarget_does isOpen) fun target t _ opened => .of_get ?_
  have added : Growth t (t.addReader target .exported) := .tables opened (.of_addReader target)
  exact .of_change added (resolve_does (added.completed.trans opened))

theorem exportAll_does {exports : List (String × PipeId)} (isOpen : s.completed = false) :
    Does Growth (exportAll exports) s := by
  induction exports generalizing s with
  | nil => exact .of_pure _
  | cons pair rest ih => exact .of_step isOpen (exportPipe_does isOpen) fun _ _ _ => ih

theorem complete_does {exports : List (String × PipeId)} : Does Change (complete exports) s := by
  refine .of_guard fun isOpen => ?_
  refine .of_bind (exportAll_does isOpen).changes fun _ t exported => .of_get ?_
  have opened := (completed_eq ((exportAll_does isOpen).ok exported)).trans isOpen
  split
  · exact .of_modify (.single (.close opened))
  · exact .of_throw _

theorem newPipe_does : Does Change newPipe s :=
  .of_guard fun isOpen => .of_get
    (.of_bind (.of_modify (.single (.pipe isOpen rfl rfl rfl rfl (by simp [addAnonymous])))) fun _ _ _ => .of_same rfl)

theorem namedPipe_does {name : String} : Does Change (namedPipe name) s :=
  .of_guard fun isOpen => .of_get
    (.of_bind (.of_modify (.single (.pipe isOpen rfl rfl rfl rfl (by simp [addPipe])))) fun _ _ _ => .of_same rfl)

theorem link_does {source target : ChainId} : Does Change (link source target) s := by
  refine .of_guard fun isOpen => .of_check (leaves_stageIndex source) fun a foundA => ?_
  refine .of_check (leaves_stageIndex target) fun b foundB => .of_get ?_
  refine .of_branch (fun _ => .of_raise) fun full => ?_
  refine .of_check (leaves_requireTail a) fun _ last => ?_
  refine .of_branch (fun _ => .of_raise) fun bare => ?_
  refine .of_branch (fun _ => .of_raise) fun apart => ?_
  obtain ⟨_,insideA,rfl,_⟩ := stageIndex_ok.mp foundA
  obtain ⟨_,insideB,rfl,_⟩ := stageIndex_ok.mp foundB
  obtain ⟨tail,_⟩ := requireTail_ok.mp last
  refine .of_modify (.single (.splice source.index target.index isOpen insideA insideB ?_ tail ?_ ?_))
  · simpa using full
  · simpa using bare
  · simpa using apart

theorem perform_does {reply : Reply} (c : Call reply) : Does Change (perform c) s := by
  cases c with
  | newPipe => exact newPipe_does
  | namedPipe => exact namedPipe_does
  | inputStream => exact inputStream_does.changes
  | setMedia => exact setMedia_does.changes
  | rename => exact rename_does.changes
  | setHint => exact setHint_does.changes
  | lookUp pipe => exact .of_same (leaves_lookUp pipe)
  | countReaders pipe => exact .of_same (leaves_check (leaves_lookUp pipe) fun _ _ => rfl)
  | start => exact start_does.changes
  | extend => exact extend_does.changes
  | connect => exact connect_does.changes
  | fork => exact fork_does.changes
  | output => exact output_does.changes
  | takeOutputs => exact takeOutputs_does.changes
  | iterate => exact iterate_does.changes
  | link => exact link_does
  | operationOf chain => exact .of_same (leaves_check (leaves_stageIndex chain) fun _ _ => rfl)
  | lookUpOperation op =>
    refine .of_same (leaves_check rfl fun t _ => ?_)
    cases t.operationFor op <;> rfl
  | setArguments => exact setArguments_does.changes
  | filter name => exact .of_same (leaves_filter name)
  | apply => exact apply_does.changes
  | place => exact place_does.changes
  | split => exact split_does.changes
  | splitChain => exact splitChain_does.changes
  | discard => exact discard_does.changes
  | complete => exact complete_does

/-! Programs over calls. -/

theorem leaves_ofExcept {α : Type} (x : Except GraphError α) :
    leaves (MonadExcept.ofExcept x : Build α) s = s := by
  cases x <;> rfl

theorem leaves_mapM {α β : Type} {f : α → Build β} (still : ∀ a, leaves (f a) s = s)
    (list : List α) : leaves (list.mapM f) s = s := by
  induction list with
  | nil => rfl
  | cons a rest ih =>
    rw [List.mapM_cons]
    exact leaves_check (still a) fun _ _ => leaves_check ih fun _ _ => rfl

theorem follow_does (plan : Plan) : Does Change (follow plan) s := by
  induction plan generalizing s with
  | finish result => cases result <;> exact .of_same rfl
  | call c next ih =>
    have guarded : Does Change
        (tryCatch (Except.ok <$> perform c) fun e => return .error e : Build _) s :=
      .of_caught (.of_map (perform_does c)) fun _ _ _ => .of_pure _
    exact .of_bind guarded fun answer _ _ => ih answer

theorem invoke_does {name : String} {inputs : List PipeId} {args : List Argument} :
    Does Change (invoke name inputs args) s := by
  refine .of_guard fun _ => .of_get ?_
  split
  next entry _ => exact follow_does (entry inputs args)
  next => exact apply_does.changes

theorem markStreams_does {streams : List (List PipeId)} :
    Does Growth (Concat.markStreams streams) s :=
  .of_markStreams (fun _ _ _ => mark_does) ..

theorem finalize_does {c : Concat} : Does Growth c.finalize s := by
  unfold Concat.finalize
  split
  next => exact .of_pure _
  next =>
    refine .of_branch (fun _ => .of_raise) fun _ => .of_bind markStreams_does fun _ _ _ => ?_
    refine .of_bind start_does fun _ _ _ => .of_bind extend_does fun _ _ _ => ?_
    exact .of_bind takeOutputs_does fun _ _ _ => .of_pure _

end Calls

/-! Scripts. -/

section Scripts
variable {s : Session}
open Script

theorem leaves_scripted {α : Type} (x : Except ScriptFault α) : leaves (scripted x) s = s := by
  cases x <;> rfl

theorem leaves_bind_name (names : Names) (name : String) (pipe : PipeId) :
    leaves (names.bind name pipe) s = s := by
  unfold Names.bind
  split <;> rfl

theorem leaves_bindAll (names : Names) (pairs : List (String × PipeId)) :
    leaves (names.bindAll pairs) s = s := by
  unfold Names.bindAll
  induction pairs generalizing names with
  | nil => rfl
  | cons pair rest ih =>
    rw [List.foldlM_cons]
    exact leaves_check (leaves_bind_name ..) fun names _ => ih names

theorem leaves_resolve_name (names : Names) (name : String) : leaves (names.resolve name) s = s := by
  unfold Names.resolve
  split <;> rfl

theorem leaves_resolveAll (names : Names) (wanted : List String) :
    leaves (names.resolveAll wanted) s = s :=
  leaves_mapM (leaves_resolve_name names) wanted

theorem bindInput_does {names : Names} {name : String} {input : Input} :
    Does Growth (bindInput names name input) s := by
  refine .of_bind inputStream_does fun pipe t _ => ?_
  split
  · exact .of_bind setMedia_does fun _ _ _ => .of_same (leaves_bind_name ..)
  · exact .of_same (leaves_bind_name ..)

theorem leaves_filterOperation (use : FilterUse) : leaves (filterOperation use) s = s := by
  unfold filterOperation
  dsimp only
  split
  · rfl
  · rfl
  · refine leaves_check (leaves_scripted _) fun _ _ => leaves_check rfl fun t _ => ?_
    refine leaves_check (leaves_ofExcept _) fun op _ => ?_
    split <;> rfl
  · refine leaves_check (leaves_scripted _) fun args _ => leaves_check rfl fun t _ => ?_
    refine leaves_check rfl fun op _ => ?_
    split <;> rfl

theorem openChain_does {inputs : List PipeId} {first : FilterUse} :
    Does Change (openChain inputs first) s := by
  refine .of_get ?_
  split
  · refine .of_branch (fun _ => .of_raise) fun _ => ?_
    exact .of_check (leaves_scripted _) fun _ _ => invoke_does
  · exact .of_check (leaves_filterOperation first) fun _ _ => place_does.changes

theorem extendChain_does {chain : ChainId} {uses : List FilterUse} :
    Does Growth (extendChain chain uses) s := by
  induction uses generalizing s chain with
  | nil => exact .of_pure _
  | cons use rest ih =>
    exact .of_check (leaves_filterOperation use) fun _ _ => .of_bind extend_does fun _ _ _ => ih

theorem buildChain_does {inputs : List PipeId} {uses : List FilterUse} :
    Does Change (buildChain inputs uses) s := by
  cases uses with
  | nil => exact .of_throw _
  | cons => exact .of_bind openChain_does fun _ _ _ => extendChain_does.changes

theorem atStep_does {α : Type} {i : Nat} {x : Build α} (does : Does Change x s) :
    Does Change (atStep i x) s :=
  .of_caught does fun _ _ _ => .of_throw _

theorem leaves_addSegments (names : Names) (c : Concat) (segments : List (List String)) :
    leaves (addSegments names c segments) s = s := by
  induction segments generalizing c with
  | nil => rfl
  | cons segment rest ih =>
    exact leaves_check (leaves_resolveAll names segment) fun _ _ =>
      leaves_check (leaves_ofExcept _) fun c _ => ih c

theorem runStep_does {i : Nat} {names : Names} {step : Step} :
    Does Change (runStep i names step) s := by
  cases step with
  | chain inputs filters outputs =>
    refine .of_check (leaves_resolveAll names inputs) fun _ _ => ?_
    refine .of_bind (atStep_does (.of_bind buildChain_does fun _ _ _ => takeOutputs_does.changes))
      fun _ _ _ => .of_same (leaves_bindAll ..)
  | concat segments outputs =>
    refine .of_check (leaves_addSegments ..) fun c _ => ?_
    refine .of_bind (atStep_does finalize_does.changes) fun made _ _ => ?_
    exact .of_branch (fun _ => .of_raise) fun _ => .of_same (leaves_bindAll ..)

theorem runSteps_does {names : Names} {i : Nat} {steps : List Step} :
    Does Change (runSteps names i steps) s := by
  induction steps generalizing s names i with
  | nil => exact .of_pure _
  | cons step rest ih => exact .of_bind runStep_does fun _ _ _ => ih

theorem bindInputs_does {names : Names} {inputs : List (String × Input)} :
    Does Growth (inputs.foldlM (fun names input => bindInput names input.1 input.2) names) s := by
  induction inputs generalizing s names with
  | nil => exact .of_pure _
  | cons input rest ih =>
    rw [List.foldlM_cons]
    exact .of_bind bindInput_does fun _ _ _ => ih

theorem build_does {script : Script} : Does Change script.build s := by
  refine .of_bind bindInputs_does.changes fun _ _ _ => .of_bind runSteps_does fun names _ _ => ?_
  exact .of_same (leaves_mapM (fun _ => leaves_check (leaves_resolve_name ..) fun _ _ => rfl) _)

end Scripts

/-! Runs of programs. -/

/-- What a caller can run on a session: calls, with plans that entry points of the catalog
stand for, and the builders. -/
inductive Program : {α : Type} → Build α → Prop
  | call {reply : Reply} (c : Call reply) : Program (perform c)
  | invoke (name : String) (inputs : List PipeId) (args : List Argument) :
      Program (invoke name inputs args)
  | finalize (c : Concat) : Program c.finalize
  | script (script : Script) : Program script.build

/-- Programs have been run one after the other, each to its end or to its failure. -/
inductive Runs : Session → Session → Prop
  | refl (s) : Runs s s
  | run {s t} {α : Type} {x : Build α} (program : Program x) (before : Runs s t) :
      Runs s (leaves x t)

def carryOut : List ((reply : Reply) × Call reply) → Session → Session
  | [], s => s
  | ⟨_,c⟩ :: rest, s => carryOut rest (leaves (perform c) s)

theorem runs_carryOut {s t : Session} (before : Runs s t)
    (calls : List ((reply : Reply) × Call reply)) : Runs s (carryOut calls t) := by
  induction calls generalizing t with
  | nil => exact before
  | cons call rest ih => exact ih (.run (.call call.2) before)

theorem Program.does {α : Type} {x : Build α} {s : Session} (program : Program x) :
    Does Change x s := by
  cases program with
  | call c => exact perform_does c
  | invoke => exact invoke_does
  | finalize => exact finalize_does.changes
  | script => exact build_does

theorem Runs.changes {s t : Session} (runs : Runs s t) : ReflTransGen Change s t := by
  induction runs with
  | refl => exact .refl
  | run program _ ih => exact ih.trans program.does

end MediaGraph.Session
