import MediaGraph.CommandLine.Run
import MediaGraph.Proofs.Assembly
import MediaGraph.Proofs.Ranks

/-! Graphs of scripts have no cycles.
A script reads names that were given before and links no chains, so the calls that it makes
are forward calls on pipes that it was given. Entry points could do more; the ones to split
and to discard do not. -/
namespace MediaGraph
open Relation

def Catalog.BuiltinEntries (catalog : Catalog) : Prop :=
  ∀ name entry, catalog.entry? name = some entry →
    entry = Catalog.splitEntry ∨ entry = Catalog.discardEntry

theorem Catalog.builtin_entries : Catalog.builtin.BuiltinEntries := by
  intro name entry found
  have entries : Catalog.builtin.entries =
      [("discard",Catalog.discardEntry),("split",Catalog.splitEntry)] := rfl
  simp only [Catalog.entry?,entries,Table.find?] at found
  split at found
  · exact .inr (Option.some.inj found).symm
  · split at found
    · exact .inl (Option.some.inj found).symm
    · cases found

namespace Account
open Session Script
variable {catalog : Catalog} {a : Account} {t : Session}

theorem Forwarded.closed (catalog : Catalog) : Closed (Forwarded catalog) :=
  fun _ _ _ forwarded forward known answered => forwarded.after forward known answered

/-! Names. -/

section Names
variable {s : Session} {names more : Names}

theorem same_of_ok {α : Type} {x : Build α} {v : α} (still : leaves x s = s)
    (called : x s = .ok v t) : t = s := (leaves_ok called).symm.trans still

theorem resolve_name_mem {name : String} {pipe : PipeId}
    (called : names.resolve name s = .ok pipe t) : pipe ∈ names.map (·.2) := by
  unfold Names.resolve at called
  cases found : names.lookup name with
  | none => simp [found,throw_ok] at called
  | some other =>
    rw [found] at called
    obtain ⟨rfl,_⟩ := pure_ok.mp called
    obtain ⟨_,_,rfl,_⟩ := List.lookup_eq_some_iff.mp found
    simp

theorem mapM_forall {α β : Type} {f : α → Build β} {P : β → Prop} {list : List α}
    {results : List β} (still : ∀ x, leaves (f x) s = s) (each : ∀ x y u, f x s = .ok y u → P y)
    (called : list.mapM f s = .ok results t) : ∀ y ∈ results, P y := by
  induction list generalizing results with
  | nil =>
    obtain ⟨rfl,_⟩ := pure_ok.mp called
    simp
  | cons x rest ih =>
    rw [List.mapM_cons] at called
    obtain ⟨y,u,first,remaining⟩ := bind_ok.mp called
    obtain rfl := same_of_ok (still x) first
    obtain ⟨others,v,all,done⟩ := bind_ok.mp remaining
    obtain ⟨rfl,rfl⟩ := pure_ok.mp done
    exact List.forall_mem_cons.mpr ⟨each x y _ first,ih all⟩

theorem resolveAll_subset {wanted : List String} {pipes : List PipeId}
    (called : names.resolveAll wanted s = .ok pipes t) : pipes ⊆ names.map (·.2) :=
  mapM_forall (leaves_resolve_name names) (fun _ _ _ => resolve_name_mem) called

theorem bind_name_eq {name : String} {pipe : PipeId} (called : names.bind name pipe s = .ok more t) :
    more = (name,pipe) :: names := by
  unfold Names.bind at called
  split at called
  · exact (throw_ok.mp called).elim
  · exact (pure_ok.mp called).1

theorem bindAll_subset {pairs : List (String × PipeId)}
    (called : names.bindAll pairs s = .ok more t) :
    more.map (·.2) ⊆ pairs.map (·.2) ++ names.map (·.2) := by
  induction pairs generalizing names with
  | nil =>
    obtain ⟨rfl,_⟩ := pure_ok.mp called
    exact List.subset_append_right ..
  | cons pair rest ih =>
    unfold Names.bindAll at called
    rw [List.foldlM_cons] at called
    obtain ⟨next,u,bound,called⟩ := bind_ok.mp called
    obtain rfl := same_of_ok (leaves_bind_name ..) bound
    obtain rfl := bind_name_eq bound
    intro id member
    have shifted := ih called member
    simp only [List.map_cons,List.mem_append,List.mem_cons] at shifted ⊢
    tauto

theorem zip_subset (outputs : List String) (ids : List PipeId) :
    (outputs.zip ids).map (·.2) ⊆ ids := by
  intro id member
  obtain ⟨pair,listed,rfl⟩ := List.mem_map.mp member
  exact (List.of_mem_zip listed).2

theorem atStep_ok {α : Type} {i : Nat} {x : Build α} {v : α} :
    atStep i x s = .ok v t ↔ x s = .ok v t := by
  change EStateM.tryCatch x _ s = _ ↔ _
  delta EStateM.tryCatch
  cases x s with
  | ok w u => rfl
  | error e u =>
    refine ⟨fun caught => (throw_ok.mp caught).elim,fun done => ?_⟩
    cases done

theorem atStep_error {α : Type} {i : Nat} {x : Build α} {e : GraphError}
    (failed : x s = .error e t) : atStep i x s = .error (e.atStep i) t := by
  change EStateM.tryCatch x _ s = _
  delta EStateM.tryCatch
  rw [failed]
  rfl

end Names

/-! What the parts of a script make. -/

section Scripts
variable {names more : Names}

def Onto (catalog : Catalog) (a : Account) (t : Session) (b : Account) : Prop :=
  Forwarded catalog b ∧ b.session = t ∧ Extends a b

theorem bindInput_forwarded {name : String} {input : Input} (forwarded : Forwarded catalog a)
    (named : names.map (·.2) ⊆ a.pipes) (called : bindInput names name input a.session = .ok more t) :
    ∃ b, Onto catalog a t b ∧ more.map (·.2) ⊆ b.pipes := by
  obtain ⟨pipe,u,opened,called⟩ := bind_ok.mp called
  let c := Call.inputStream input.stream
  have knows : a.Knows c :=
    ⟨by simp [c,Call.pipes],by simp [c,Call.chains],by simp [c,Call.operations]⟩
  have first := forwarded.after (c := c) trivial knows opened
  have extendsA : Extends a (a.after c pipe u) := .after a c pipe u
  have given : pipe ∈ (a.after c pipe u).pipes := List.mem_append_right _ (List.mem_singleton.mpr rfl)
  obtain ⟨b,holds,extendsB,bound⟩ : ∃ b, Forwarded catalog b ∧ Extends (a.after c pipe u) b ∧
      names.bind name pipe b.session = .ok more t := by
    cases kind : input.media with
    | none =>
      rw [kind] at called
      exact ⟨_,first,.refl _,called⟩
    | some media =>
      rw [kind] at called
      obtain ⟨_,v,marked,bound⟩ := bind_ok.mp called
      obtain ⟨b,holds,rfl,after⟩ := setMedia_closed (.closed catalog) first given marked
      exact ⟨b,holds,after,bound⟩
  obtain rfl := same_of_ok (leaves_bind_name ..) bound
  obtain rfl := bind_name_eq bound
  refine ⟨b,⟨holds,rfl,extendsA.trans extendsB⟩,List.cons_subset.mpr ⟨extendsB.pipes given,?_⟩⟩
  exact List.Subset.trans named (extendsA.trans extendsB).pipes

theorem bindInputs_forwarded {inputs : List (String × Input)} (forwarded : Forwarded catalog a)
    (named : names.map (·.2) ⊆ a.pipes)
    (called : inputs.foldlM (fun names input => bindInput names input.1 input.2) names a.session =
      .ok more t) : ∃ b, Onto catalog a t b ∧ more.map (·.2) ⊆ b.pipes := by
  induction inputs generalizing a names with
  | nil =>
    obtain ⟨rfl,rfl⟩ := pure_ok.mp called
    exact ⟨a,⟨forwarded,rfl,.refl a⟩,named⟩
  | cons input rest ih =>
    rw [List.foldlM_cons] at called
    obtain ⟨next,u,bound,called⟩ := bind_ok.mp called
    obtain ⟨b,⟨holds,rfl,first⟩,namedB⟩ := bindInput_forwarded forwarded named bound
    obtain ⟨c,⟨holdsC,same,second⟩,namedC⟩ := ih holds namedB called
    exact ⟨c,⟨holdsC,same,first.trans second⟩,namedC⟩

theorem follow_ofCall (c : Call .chain) (s : Session) : follow (.ofCall c) s = perform c s := by
  change EStateM.bind (EStateM.tryCatch (EStateM.map Except.ok (perform c)) _) _ s = _
  delta EStateM.bind EStateM.tryCatch EStateM.map
  cases perform c s <;> rfl

theorem follow_fail {e : GraphError} {s : Session} {chain : ChainId}
    (called : follow (.fail e) s = .ok chain t) : False :=
  throw_ok.mp called

theorem entry_forwarded {entry : EntryPoint} {inputs : List PipeId} {args : List Argument}
    {chain : ChainId} (builtin : entry = Catalog.splitEntry ∨ entry = Catalog.discardEntry)
    (forwarded : Forwarded catalog a) (known : inputs ⊆ a.pipes)
    (called : follow (entry inputs args) a.session = .ok chain t) :
    ∃ b, Onto catalog a t b ∧ chain ∈ b.chains := by
  have begin {c : Call .chain} (forward : c.Forward) (pipes : c.pipes ⊆ a.pipes)
      (chains : c.chains = []) (operations : c.operations = [])
      (called : follow (.ofCall c) a.session = .ok chain t) :
      ∃ b, Onto catalog a t b ∧ chain ∈ b.chains := by
    obtain ⟨b,holds,same,after,given⟩ := begin_closed (.closed catalog) forwarded forward pipes chains
      operations (follow_ofCall c a.session ▸ called)
    exact ⟨b,⟨holds,same,after⟩,given⟩
  rcases builtin with rfl | rfl
  · unfold Catalog.splitEntry at called
    split at called
    next input => exact begin (c := .splitChain input 2) trivial known rfl rfl called
    next input text =>
      split at called
      next count _ => exact begin (c := .splitChain input count) trivial known rfl rfl called
      next => exact (follow_fail called).elim
    next => exact (follow_fail called).elim
    next => exact (follow_fail called).elim
  · unfold Catalog.discardEntry at called
    split at called
    next input => exact begin (c := .discard input) trivial known rfl rfl called
    next => exact (follow_fail called).elim

theorem openChain_forwarded {inputs : List PipeId} {first : FilterUse} {chain : ChainId}
    (builtin : catalog.BuiltinEntries) (forwarded : Forwarded catalog a) (known : inputs ⊆ a.pipes)
    (called : openChain inputs first a.session = .ok chain t) :
    ∃ b, Onto catalog a t b ∧ chain ∈ b.chains := by
  simp only [openChain,bind_ok,get_ok,and_assoc,exists_and_left,exists_eq_left] at called
  have placing (placed : (do Session.place inputs (← filterOperation first)) a.session = .ok chain t) :
      ∃ b, Onto catalog a t b ∧ chain ∈ b.chains := by
    obtain ⟨op,u,made,placed⟩ := bind_ok.mp placed
    obtain rfl := same_of_ok (leaves_filterOperation first) made
    obtain ⟨b,holds,same,after,given⟩ := begin_closed (.closed catalog) (c := .place inputs op)
      forwarded trivial known rfl rfl placed
    exact ⟨b,⟨holds,same,after⟩,given⟩
  cases title : first.name with
  | none => exact placing (by simpa only [title] using called)
  | some name =>
    cases found : a.session.catalog.entry? name with
    | none => exact placing (by simpa only [title,Option.getD_some,found] using called)
    | some entry =>
      simp only [title,Option.getD_some,found,choice_ok,bind_ok,throw_ok,false_and,exists_false,
        and_false,false_or] at called
      obtain ⟨_,args,u,read,invoked⟩ := called
      obtain rfl := same_of_ok (leaves_scripted _) read
      simp only [invoke,bind_ok,requireOpen_ok,get_ok,and_assoc,exists_and_left,exists_eq_left,
        exists_const,found] at invoked
      rw [forwarded.catalog] at found
      exact entry_forwarded (builtin name entry found) forwarded known invoked.2

theorem extendChain_forwarded {uses : List FilterUse} {chain last : ChainId}
    (forwarded : Forwarded catalog a) (known : chain ∈ a.chains)
    (called : extendChain chain uses a.session = .ok last t) :
    ∃ b, Onto catalog a t b ∧ last ∈ b.chains := by
  induction uses generalizing a chain with
  | nil =>
    obtain ⟨rfl,rfl⟩ := pure_ok.mp called
    exact ⟨a,⟨forwarded,rfl,.refl a⟩,known⟩
  | cons use rest ih =>
    obtain ⟨op,u,made,called⟩ := bind_ok.mp called
    obtain rfl := same_of_ok (leaves_filterOperation use) made
    obtain ⟨next,v,extended,called⟩ := bind_ok.mp called
    obtain ⟨b,holds,rfl,first,given⟩ := extend_closed (.closed catalog) forwarded known extended
    obtain ⟨c,⟨holdsC,same,second⟩,givenC⟩ := ih holds given called
    exact ⟨c,⟨holdsC,same,first.trans second⟩,givenC⟩

theorem buildChain_forwarded {inputs : List PipeId} {uses : List FilterUse} {chain : ChainId}
    (builtin : catalog.BuiltinEntries) (forwarded : Forwarded catalog a) (known : inputs ⊆ a.pipes)
    (called : buildChain inputs uses a.session = .ok chain t) :
    ∃ b, Onto catalog a t b ∧ chain ∈ b.chains := by
  cases uses with
  | nil => exact (throw_ok.mp called).elim
  | cons first rest =>
    obtain ⟨begun,u,opened,extended⟩ := bind_ok.mp called
    obtain ⟨b,⟨holds,rfl,after⟩,given⟩ := openChain_forwarded builtin forwarded known opened
    obtain ⟨c,⟨holdsC,same,second⟩,givenC⟩ := extendChain_forwarded holds given extended
    exact ⟨c,⟨holdsC,same,after.trans second⟩,givenC⟩

theorem zipWith_subset (streams : List (List PipeId)) (row : List PipeId) :
    (streams.zipWith (fun stream p => stream ++ [p]) row).flatten ⊆ row ++ streams.flatten := by
  induction streams generalizing row with
  | nil => simp
  | cons stream rest ih =>
    cases row with
    | nil => simp
    | cons p row =>
      intro id member
      simp only [List.zipWith_cons_cons,List.flatten_cons,List.mem_append,List.mem_singleton] at member
      have later := @ih row id
      simp only [List.flatten_cons,List.mem_append,List.mem_cons] at later ⊢
      tauto

theorem addSegment_streams {c d : Concat} {row : List PipeId} (added : c.addSegment row = .ok d) :
    d.streams.flatten ⊆ row ++ c.streams.flatten ∧ d.outputs = c.outputs := by
  rw [Concat.addSegment,Concat.after,Concat.putSegment_eq] at added
  cases free : c.segmentFault row with
  | some fault => simp [free] at added
  | none =>
    simp only [free,Except.ok.injEq] at added
    subst added
    refine ⟨?_,rfl⟩
    by_cases first : c.streams = []
    · simpa [Concat.withSegment,Concat.columns,first] using zipWith_subset (List.replicate row.length []) row
    · simpa [Concat.withSegment,Concat.columns,first] using zipWith_subset c.streams row

theorem addSegments_streams {c d : Concat} {segments : List (List String)} {s : Session}
    {pipes : List PipeId} (named : names.map (·.2) ⊆ pipes) (known : c.streams.flatten ⊆ pipes)
    (fresh : c.outputs = none) (called : addSegments names c segments s = .ok d t) :
    d.streams.flatten ⊆ pipes ∧ d.outputs = none := by
  induction segments generalizing c with
  | nil =>
    obtain ⟨rfl,_⟩ := pure_ok.mp called
    exact ⟨known,fresh⟩
  | cons segment rest ih =>
    obtain ⟨row,u,found,remaining⟩ := bind_ok.mp called
    obtain rfl := same_of_ok (leaves_resolveAll names segment) found
    obtain ⟨next,v,added,more⟩ := bind_ok.mp remaining
    obtain ⟨grown,rfl⟩ := ofExcept_ok.mp added
    have listed : row ⊆ pipes := List.Subset.trans (resolveAll_subset found) named
    obtain ⟨streams,outputs⟩ := addSegment_streams grown
    exact ih (List.Subset.trans streams (List.append_subset.mpr ⟨listed,known⟩))
      (outputs.trans fresh) more

theorem runStep_forwarded {i : Nat} {step : Step} (builtin : catalog.BuiltinEntries)
    (forwarded : Forwarded catalog a) (named : names.map (·.2) ⊆ a.pipes)
    (called : runStep i names step a.session = .ok more t) :
    ∃ b, Onto catalog a t b ∧ more.map (·.2) ⊆ b.pipes := by
  have finish {outputs : List String} {ids : List PipeId} {b : Account} (after : Extends a b)
      (given : ids ⊆ b.pipes) {s : Session}
      (bound : names.bindAll (outputs.zip ids) s = .ok more t) : more.map (·.2) ⊆ b.pipes := by
    refine List.Subset.trans (bindAll_subset bound) (List.append_subset.mpr ⟨?_,?_⟩)
    · exact List.Subset.trans (zip_subset outputs ids) given
    · exact List.Subset.trans named after.pipes
  cases step with
  | chain inputs filters outputs =>
    obtain ⟨pipes,u,found,stepped⟩ := bind_ok.mp called
    obtain rfl := same_of_ok (leaves_resolveAll names inputs) found
    obtain ⟨made,v,ran,bound⟩ := bind_ok.mp stepped
    obtain ⟨chain,w,built,taken⟩ := bind_ok.mp (atStep_ok.mp ran)
    obtain rfl := same_of_ok (leaves_bindAll ..) bound
    have known := List.Subset.trans (resolveAll_subset found) named
    obtain ⟨b,⟨holds,rfl,first⟩,chained⟩ := buildChain_forwarded builtin forwarded known built
    obtain ⟨c,holdsC,same,second,given⟩ := takeOutputs_closed (.closed catalog) holds chained taken
    exact ⟨c,⟨holdsC,same,first.trans second⟩,finish (first.trans second) given bound⟩
  | concat segments outputs =>
    obtain ⟨c,u,added,stepped⟩ := bind_ok.mp called
    obtain rfl := same_of_ok (leaves_addSegments ..) added
    obtain ⟨⟨d,made⟩,v,ran,remaining⟩ := bind_ok.mp stepped
    simp only [choice_ok,bind_ok,throw_ok,false_and,exists_false,and_false,false_or] at remaining
    obtain ⟨_,bound⟩ := remaining
    obtain rfl := same_of_ok (leaves_bindAll ..) bound
    obtain ⟨known,fresh⟩ := addSegments_streams named (List.nil_subset _) rfl added
    obtain ⟨b,holds,same,first,given⟩ := finalize_closed (.closed catalog) forwarded known
      (by rw [fresh]; exact List.nil_subset _) (atStep_ok.mp ran)
    exact ⟨b,⟨holds,same,first⟩,finish first given bound⟩

theorem runSteps_forwarded {i : Nat} {steps : List Step} (builtin : catalog.BuiltinEntries)
    (forwarded : Forwarded catalog a) (named : names.map (·.2) ⊆ a.pipes)
    (called : runSteps names i steps a.session = .ok more t) :
    ∃ b, Onto catalog a t b ∧ more.map (·.2) ⊆ b.pipes := by
  induction steps generalizing a names i with
  | nil =>
    obtain ⟨rfl,rfl⟩ := pure_ok.mp called
    exact ⟨a,⟨forwarded,rfl,.refl a⟩,named⟩
  | cons step rest ih =>
    obtain ⟨next,u,ran,remaining⟩ := bind_ok.mp called
    obtain ⟨b,⟨holds,rfl,first⟩,namedB⟩ := runStep_forwarded builtin forwarded named ran
    obtain ⟨c,⟨holdsC,same,second⟩,namedC⟩ := ih holds namedB remaining
    exact ⟨c,⟨holdsC,same,first.trans second⟩,namedC⟩

theorem build_forwarded {script : Script} {exports : List (String × PipeId)}
    (builtin : catalog.BuiltinEntries) (forwarded : Forwarded catalog a)
    (called : script.build a.session = .ok exports t) :
    ∃ b, Onto catalog a t b ∧ exports.map (·.2) ⊆ b.pipes := by
  obtain ⟨given,u,opened,remaining⟩ := bind_ok.mp called
  obtain ⟨names,v,ran,listed⟩ := bind_ok.mp remaining
  obtain ⟨b,⟨holds,rfl,first⟩,namedB⟩ := bindInputs_forwarded forwarded (List.nil_subset _) opened
  obtain ⟨c,⟨holdsC,rfl,second⟩,namedC⟩ := runSteps_forwarded builtin holds namedB ran
  have still (pair : String × String) : leaves (do return (pair.1, ← names.resolve pair.2))
      c.session = c.session :=
    leaves_check (leaves_resolve_name names pair.2) fun _ _ => rfl
  have each := mapM_forall (P := fun pair => pair.2 ∈ names.map (·.2)) still (fun pair made w ready => by
    obtain ⟨pipe,y,resolved,paired⟩ := bind_ok.mp ready
    obtain ⟨rfl,rfl⟩ := pure_ok.mp paired
    exact resolve_name_mem resolved) listed
  obtain rfl := same_of_ok (leaves_mapM still _) listed
  refine ⟨c,⟨holdsC,rfl,first.trans second⟩,fun id member => namedC ?_⟩
  obtain ⟨pair,present,rfl⟩ := List.mem_map.mp member
  exact each pair present

end Scripts
end Account

open Account Session in
/-- A script that builds and completes, over a catalog whose entry points split and discard, has
made a graph without cycles. -/
theorem script_acyclic {catalog : Catalog} {serial : Nat} {script : Script}
    {exports : List (String × PipeId)} {s t : Session} (builtin : catalog.BuiltinEntries)
    (built : script.build (.new serial catalog) = .ok exports s)
    (completed : Session.complete exports s = .ok () t) (i : Nat) : ¬ TransGen t.Flows i i := by
  obtain ⟨a,⟨forwarded,rfl,_⟩,given⟩ :=
    build_forwarded (a := .new serial catalog) builtin (.new serial catalog) built
  have known : a.Knows (.complete exports) :=
    ⟨fun _ member => given member,by simp [Call.chains],by simp [Call.operations]⟩
  obtain ⟨rising,fed,upstream⟩ := forwarded.complete known completed
  have consistent := forwarded.reached.consistent.after (c := .complete exports) known completed
  have names := (complete_wellFormed forwarded.reached known completed).2.2
  exact upstream.acyclic consistent rising fed names i

/-- A pipe that is read by a split of the script and by a concatenation, and what comes of the
concatenation under two names. -/
def forked : Script where
  inputs := [("in",⟨"0:v",some .video⟩)]
  steps :=
    [.chain ["in"] [⟨some "null",none,[],[],none⟩] ["wide"],
      .chain ["wide"] [⟨some "split",none,[],[],none⟩] ["left","right"],
      .concat [["left"],["wide"]] ["joined"],
      .chain ["right"] [⟨some "discard",none,[],[],none⟩] []]
  exports := [("out","joined"),("copy","in"),("again","joined")]

open CommandLine Session in
theorem compileScript_done {catalog : Catalog} {script : Script} {text : String}
    (shown : (compileScript catalog script).toOption = some text) :
    ∃ exports s t, script.build (.new 0 catalog) = .ok exports s ∧
      Session.complete exports s = .ok () t ∧ t.render = text := by
  unfold compileScript at shown
  split at shown
  next => cases shown
  next exports s built =>
    split at shown
    next => cases shown
    next rendered u finished =>
      obtain ⟨_,t,completed,rest⟩ := bind_ok.mp finished
      obtain ⟨_,_,got,rest⟩ := bind_ok.mp rest
      obtain ⟨rfl,rfl⟩ := get_ok.mp got
      obtain ⟨same,_⟩ := pure_ok.mp rest
      have given : rendered = text := Option.some.inj shown
      exact ⟨exports,s,_,built,completed,same.symm.trans given⟩

theorem script_acyclic_forked : ∃ exports s t, forked.build (.new 0 .builtin) = .ok exports s ∧
    Session.complete exports s = .ok () t ∧
    t.render = "[0:v]null[_0];[_3]split='2'[_1][_2];[_1][_4]concat='n=2:v=1:a=0'[_7];" ++
      "[_0]split='2'[_3][_4];[_2]nullsink;[0:v]null[copy];[_8]null[again];[_7]split='2'[out][_8]" ∧
    ∀ i, ¬ TransGen t.Flows i i := by
  have shown : (CommandLine.compileScript .builtin forked).toOption =
      some ("[0:v]null[_0];[_3]split='2'[_1][_2];[_1][_4]concat='n=2:v=1:a=0'[_7];" ++
        "[_0]split='2'[_3][_4];[_2]nullsink;[0:v]null[copy];[_8]null[again];[_7]split='2'[out][_8]") := by
    decide +kernel
  obtain ⟨exports,s,t,built,completed,rendered⟩ := compileScript_done shown
  exact ⟨exports,s,t,built,completed,rendered,
    script_acyclic Catalog.builtin_entries built completed⟩

end MediaGraph
