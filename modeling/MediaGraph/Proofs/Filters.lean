import MediaGraph.Proofs.Acyclic
import MediaGraph.Proofs.Commands
import MediaGraph.Proofs.Gains

/-! What becomes of the filters of a script.
The filters are placed in the order in which they are written. The first one of a step opens a chain,
by the entry point of its name if there is one, and each of the others goes behind the one before it
under the name that it has. -/
namespace MediaGraph.Script
open Session

def Step.uses : Step → List (Bool × FilterUse)
  | .chain _ [] _ => []
  | .chain _ (first :: rest) _ => (true,first) :: rest.map (Prod.mk false)
  | .concat _ _ => []

def uses (script : Script) : List (Bool × FilterUse) := script.steps.flatMap Step.uses

def ownNames : List String := ["split","asplit","concat","sendcmd","asendcmd"]

namespace FilterUse

def tag (use : FilterUse) (op : Operation) : Operation :=
  match use.id with
  | some id => op.withId id
  | none => op

/-- The operation that a filter stands for: one of its name and arguments, or one that sends its
commands. -/
inductive Makes (s : Session) (use : FilterUse) : Operation → Prop
  | named {name : String} {args : List Argument} (named : use.name = some name)
      (plain : use.commands = []) (read : use.args.mapM Argument.ofJson = .ok args) :
      Makes s use (use.tag ((knownOr s.catalog name).withArguments args))
  | timed {list : Schedule} {op : Operation} (unnamed : use.name = none) (given : use.commands ≠ [])
      (read : schedule use.commands = .ok list)
      (made : list.toOperation s (use.media.getD .unknown) = .ok op) : Makes s use (use.tag op)

variable {s t : Session} {use : FilterUse} {op : Operation}

@[simp] theorem tag_name (use : FilterUse) (op : Operation) : (use.tag op).name = op.name := by
  unfold tag
  split <;> rfl

@[simp] theorem tag_args (use : FilterUse) (op : Operation) : (use.tag op).args = op.args := by
  unfold tag
  split <;> rfl

theorem knownOr_name (catalog : Catalog) (name : String) : (knownOr catalog name).name = name := by
  unfold knownOr
  split <;> rfl

theorem scripted_ok {α : Type} {x : Except ScriptFault α} {a : α} :
    scripted x s = .ok a t ↔ x = .ok a ∧ t = s := by
  cases x with
  | error e => simp [scripted,throw_ok]
  | ok v => simp [scripted,pure_ok,eq_comm]

theorem makes_of_ok (called : filterOperation use s = .ok op t) : use.Makes s op ∧ t = s := by
  have tagged {made : Operation} {u : Session}
      (last : (match use.id with
        | some id => return made.withId id
        | none => return made : Build Operation) u = .ok op t) : op = use.tag made ∧ t = u := by
    unfold tag
    cases id : use.id <;> simpa only [id,pure_ok] using last
  cases title : use.name with
  | none =>
    cases given : use.commands with
    | nil =>
      simp only [filterOperation,title,given,List.isEmpty_nil,bind_ok,throw_ok,false_and,
        exists_false] at called
    | cons interval rest =>
      simp only [filterOperation,title,given,List.isEmpty_cons,bind_ok,scripted_ok,get_ok,ofExcept_ok,
        and_assoc,exists_and_left,exists_eq_left] at called
      obtain ⟨list,read,made,sent,last⟩ := called
      obtain ⟨rfl,rfl⟩ := tagged last
      exact ⟨.timed title (by simp [given]) (by rw [given]; exact read) sent,rfl⟩
  | some name =>
    cases given : use.commands with
    | nil =>
      simp only [filterOperation,title,given,List.isEmpty_nil,bind_ok,scripted_ok,get_ok,pure_ok,
        and_assoc,exists_and_left,exists_eq_left] at called
      obtain ⟨args,read,last⟩ := called
      obtain ⟨rfl,rfl⟩ := tagged last
      exact ⟨.named title given read,rfl⟩
    | cons interval rest =>
      simp only [filterOperation,title,given,List.isEmpty_cons,bind_ok,throw_ok,false_and,
        exists_false] at called

theorem Makes.exclusive (makes : use.Makes s op) :
    (use.name.isSome = true ∧ use.commands = []) ∨
      (use.name = none ∧ use.commands ≠ [] ∧ (op.name = "sendcmd" ∨ op.name = "asendcmd") ∧
        ∃ list, schedule use.commands = .ok list ∧ list.text s = .ok op.args) := by
  cases makes with
  | named named plain => exact .inl ⟨by rw [named]; rfl,plain⟩
  | @timed list op unnamed given read made =>
    obtain ⟨name,text,filter,shown,rfl⟩ := Schedule.toOperation_ok.mp made
    refine .inr ⟨unnamed,given,?_,list,read,by rw [tag_args]; exact shown⟩
    rw [tag_name]
    cases media : use.media.getD .unknown <;> simp_all [Helper.filter]

theorem Makes.named_or_own (makes : use.Makes s op) :
    use.name = some op.name ∨ use.name = none ∧ op.name ∈ ownNames := by
  rcases makes.exclusive with ⟨named,plain⟩ | ⟨unnamed,_,sender,_⟩
  · cases makes with
    | named title =>
      left
      rw [title,tag_name]
      exact congrArg some (knownOr_name ..).symm
    | timed _ given => exact absurd plain given
  · exact .inr ⟨unnamed,by rcases sender with same | same <;> rw [same] <;> decide⟩

end FilterUse

def Places (first : Bool) (op : Operation) (s t : Session) : Prop :=
  (first = true ∧ ∃ inputs chain, Session.place inputs op s = .ok chain t) ∨
    (first = false ∧ ∃ chain next, Session.extend chain op s = .ok next t)

/-- What the session comes to by one filter: the entry point of its name, or the operation that it
stands for. -/
inductive Laid (s t : Session) : Bool → FilterUse → Prop
  | entry {use : FilterUse} {name : String} {args : List Argument} (inputs : List PipeId)
      (chain : ChainId) (named : use.name = some name)
      (registered : (s.catalog.entry? name).isSome = true) (noId : use.id = none)
      (read : use.args.mapM Argument.ofJson = .ok args)
      (invoked : Session.invoke name inputs args s = .ok chain t) : Laid s t true use
  | operation {first : Bool} {use : FilterUse} {op : Operation}
      (plain : first = true → ∀ name, use.name = some name → s.catalog.entry? name = none)
      (makes : use.Makes s op) (places : Places first op s t) : Laid s t first use

/-- The session comes to another one by filters in turn, and by steps between them that place at
most a concatenation and splits. -/
inductive Builds : List (Bool × FilterUse) → Session → Session → Prop
  | done (s) : Builds [] s s
  | aside {uses s t u} (aside : Gains (WithSplits "concat") s t) (rest : Builds uses t u) :
      Builds uses s u
  | filter {first use uses s t u} (laid : Laid s t first use) (rest : Builds uses t u) :
      Builds ((first,use) :: uses) s u

section Building
variable {s t u : Session} {first : Bool} {use : FilterUse} {filters more : List (Bool × FilterUse)}

theorem Builds.of_gains (gains : Gains (WithSplits "concat") s t) : Builds [] s t :=
  .aside gains (.done t)

theorem Builds.append (before : Builds filters s t) (after : Builds more t u) :
    Builds (filters ++ more) s u := by
  induction before with
  | done => exact after
  | aside aside _ ih => exact .aside aside (ih after)
  | filter laid _ ih => exact .filter laid (ih after)

theorem Builds.cut (builds : Builds (filters ++ (first,use) :: more) s u) :
    ∃ v w, Builds filters s v ∧ Laid v w first use ∧ Builds more w u := by
  generalize whole : filters ++ (first,use) :: more = list at builds
  induction builds generalizing filters with
  | done => simp at whole
  | aside aside _ ih =>
    obtain ⟨v,w,before,laid,after⟩ := ih whole
    exact ⟨v,w,.aside aside before,laid,after⟩
  | @filter _ _ _ s t u laid rest ih =>
    cases filters with
    | nil =>
      cases whole
      exact ⟨s,t,.done s,laid,rest⟩
    | cons head tail =>
      cases whole
      obtain ⟨v,w,before,next,after⟩ := ih rfl
      exact ⟨v,w,.filter laid before,next,after⟩

theorem own_of_withSplits {name other : String} (own : name ∈ ownNames)
    (placed : WithSplits name other) : other ∈ ownNames := by
  rcases placed with rfl | rfl | rfl
  · exact own
  · decide
  · decide

theorem lays_of_extend {chain next : ChainId} {op : Operation}
    (called : Session.extend chain op s = .ok next t) :
    s.operations.size < t.operations.size ∧ (t.operation s.operations.size).name = op.name := by
  obtain ⟨_,_,_,_,⟨_,_,resolved⟩ | ⟨_,_,_,rfl⟩⟩ := extend_ok.mp called
  · have inside : s.operations.size < (s.hold chain.index op).operations.size := by simp [hold]
    have gains := resolveAll_gains.gains resolved
    refine ⟨Nat.lt_of_lt_of_le inside gains.size,?_⟩
    rw [gains.kept inside,operation_hold,if_pos rfl]
  · exact ⟨by simp [Session.append],by rw [operation_append,if_pos rfl]⟩

theorem lays_of_place {inputs : List PipeId} {chain : ChainId} {op : Operation}
    (called : Session.place inputs op s = .ok chain t) :
    s.operations.size < t.operations.size ∧ (t.operation s.operations.size).name = op.name := by
  have last {u : Session} (still : Gains (fun _ => False) s u)
      (going : (do extend (← start inputs) op) u = .ok chain t) :
      s.operations.size < t.operations.size ∧ (t.operation s.operations.size).name = op.name := by
    obtain ⟨begun,v,started,extended⟩ := bind_ok.mp going
    rw [← (still.trans (start_gains.gains started)).size_eq]
    exact lays_of_extend extended
  simp only [place,bind_ok,requireOpen_ok,get_ok,and_assoc,exists_and_left,exists_eq_left,
    exists_const] at called
  obtain ⟨_,called⟩ := called
  cases found : s.catalog.get? op.name with
  | some spec =>
    rw [found] at called
    obtain ⟨_,v,marked,rest⟩ := bind_ok.mp called
    exact last (markInputs_gains.gains marked) rest
  | none =>
    rw [found] at called
    exact last (.refl s) called

theorem Places.lays {op : Operation} (places : Places first op s t) :
    s.operations.size < t.operations.size ∧ (t.operation s.operations.size).name = op.name := by
  rcases places with ⟨_,_,_,placed⟩ | ⟨_,_,_,extended⟩
  · exact lays_of_place placed
  · exact lays_of_extend extended

theorem Places.gains {op : Operation} (places : Places first op s t) :
    Gains (WithSplits op.name) s t := by
  rcases places with ⟨_,_,_,placed⟩ | ⟨_,_,_,extended⟩
  · exact place_gains.gains placed
  · exact extend_gains.gains extended

theorem Laid.named (laid : Laid s t first use) {o : Nat} (old : s.operations.size ≤ o)
    (inside : o < t.operations.size) : (t.operation o).name ∈ ownNames ∨
      (use.name = some (t.operation o).name ∧
        (first = true → s.catalog.entry? (t.operation o).name = none)) ∨
      (first = true ∧ ∃ name inputs args chain, use.name = some name ∧
        (s.catalog.entry? name).isSome = true ∧ Session.invoke name inputs args s = .ok chain t) := by
  have brought {op : Operation} (makes : use.Makes s op)
      (placed : WithSplits op.name (t.operation o).name) :
      (t.operation o).name ∈ ownNames ∨ use.name = some (t.operation o).name := by
    rcases makes.named_or_own with title | ⟨_,own⟩
    · rcases placed with same | divider
      · exact .inr (same ▸ title)
      · have split : "split" ∈ ownNames := by decide
        exact .inl (own_of_withSplits split (.inr divider))
    · exact .inl (own_of_withSplits own placed)
  cases laid with
  | entry inputs chain title known _ _ invoked =>
    exact .inr (.inr ⟨rfl,_,inputs,_,chain,title,known,invoked⟩)
  | operation plain makes places =>
    rcases brought makes (places.gains.new old inside) with own | title
    · exact .inl own
    · exact .inr (.inl ⟨title,fun first => plain first _ title⟩)

theorem Laid.gains (laid : Laid s t first use) : Gains (fun _ => True) s t := by
  cases laid with
  | entry inputs chain _ _ _ _ invoked => exact gains_of_changes (invoke_does.ok invoked)
  | operation _ _ places => exact places.gains.mono fun _ _ => trivial

theorem Builds.gains (builds : Builds filters s t) : Gains (fun _ => True) s t := by
  induction builds with
  | done s => exact .refl s
  | aside aside _ ih => exact (aside.mono fun _ _ => trivial).trans ih
  | filter laid _ ih => exact laid.gains.trans ih

theorem Builds.origin (builds : Builds filters s t) {o : Nat} (old : s.operations.size ≤ o)
    (inside : o < t.operations.size) : WithSplits "concat" (t.operation o).name ∨
      ∃ before first use after v w, filters = before ++ (first,use) :: after ∧ Builds before s v ∧
        Laid v w first use ∧ Builds after w t ∧ v.operations.size ≤ o ∧ o < w.operations.size := by
  induction builds with
  | done => omega
  | @aside _ s u t aside rest ih =>
    rcases Nat.lt_or_ge o u.operations.size with early | late
    · rw [rest.gains.kept early]
      exact .inl (aside.new old early)
    · rcases ih late inside with own | ⟨before,first,use,after,v,w,same,start,laid,last,low,high⟩
      · exact .inl own
      · exact .inr ⟨before,first,use,after,v,w,same,.aside aside start,laid,last,low,high⟩
  | @filter first use rest s u t laid builds ih =>
    rcases Nat.lt_or_ge o u.operations.size with early | late
    · exact .inr ⟨[],first,use,rest,s,u,rfl,.done s,laid,builds,old,early⟩
    · rcases ih late inside with own | ⟨before,other,next,after,v,w,same,start,turn,last,low,high⟩
      · exact .inl own
      · refine .inr ⟨(first,use) :: before,other,next,after,v,w,?_,.filter laid start,turn,last,low,high⟩
        rw [same,List.cons_append]

end Building

section Scripts
variable {s t : Session} {names more : Names}

theorem openChain_laid {inputs : List PipeId} {first : FilterUse} {chain : ChainId}
    (called : openChain inputs first s = .ok chain t) : Laid s t true first := by
  simp only [openChain,bind_ok,get_ok,and_assoc,exists_and_left,exists_eq_left] at called
  have placing (plain : ∀ name, first.name = some name → s.catalog.entry? name = none)
      (placed : (do Session.place inputs (← filterOperation first)) s = .ok chain t) :
      Laid s t true first := by
    obtain ⟨op,u,made,laid⟩ := bind_ok.mp placed
    obtain ⟨makes,rfl⟩ := FilterUse.makes_of_ok made
    exact .operation (fun _ => plain) makes (.inl ⟨rfl,inputs,chain,laid⟩)
  cases title : first.name with
  | none => exact placing (by simp [title]) (by simpa only [title] using called)
  | some name =>
    cases found : s.catalog.entry? name with
    | none =>
      refine placing (fun other same => ?_) (by simpa only [title,Option.getD_some,found] using called)
      obtain rfl := Option.some.inj (title.symm.trans same)
      exact found
    | some entry =>
      simp only [title,Option.getD_some,found,choice_ok,bind_ok,throw_ok,false_and,exists_false,
        and_false,false_or,FilterUse.scripted_ok] at called
      obtain ⟨noId,args,u,⟨read,rfl⟩,invoked⟩ := called
      exact .entry inputs chain title (by rw [found]; rfl) (by simpa using noId) read invoked

theorem extendChain_builds {uses : List FilterUse} {chain last : ChainId}
    (called : extendChain chain uses s = .ok last t) : Builds (uses.map (Prod.mk false)) s t := by
  induction uses generalizing s chain with
  | nil =>
    obtain ⟨_,same⟩ := pure_ok.mp called
    exact same ▸ .done s
  | cons use rest ih =>
    obtain ⟨op,u,made,going⟩ := bind_ok.mp called
    obtain ⟨makes,rfl⟩ := FilterUse.makes_of_ok made
    obtain ⟨next,v,extended,going⟩ := bind_ok.mp going
    exact .filter (.operation nofun makes (.inr ⟨rfl,chain,next,extended⟩)) (ih going)

theorem runStep_builds {i : Nat} {step : Step} (called : runStep i names step s = .ok more t) :
    Builds step.uses s t := by
  cases step with
  | chain inputs filters outputs =>
    obtain ⟨pipes,u,found,stepped⟩ := bind_ok.mp called
    obtain rfl := Account.same_of_ok (leaves_resolveAll names inputs) found
    obtain ⟨made,v,ran,bound⟩ := bind_ok.mp stepped
    obtain ⟨chain,w,built,taken⟩ := bind_ok.mp (Account.atStep_ok.mp ran)
    obtain rfl := Account.same_of_ok (leaves_bindAll ..) bound
    have last : Builds [] w t := .of_gains (takeOutputs_gains.gains taken)
    cases filters with
    | nil => exact (throw_ok.mp built).elim
    | cons first rest =>
      obtain ⟨begun,x,opened,extended⟩ := bind_ok.mp built
      have all := (extendChain_builds extended).append last
      rw [List.append_nil] at all
      exact .filter (openChain_laid opened) all
  | concat segments outputs =>
    obtain ⟨c,u,added,stepped⟩ := bind_ok.mp called
    obtain rfl := Account.same_of_ok (leaves_addSegments ..) added
    obtain ⟨⟨d,made⟩,v,ran,remaining⟩ := bind_ok.mp stepped
    have gains := finalize_gains.gains (Account.atStep_ok.mp ran)
    simp only [choice_ok,bind_ok,throw_ok,false_and,exists_false,and_false,false_or] at remaining
    obtain rfl := Account.same_of_ok (leaves_bindAll ..) remaining.2
    exact .of_gains gains

theorem runSteps_builds {i : Nat} {steps : List Step} (called : runSteps names i steps s = .ok more t) :
    Builds (steps.flatMap Step.uses) s t := by
  induction steps generalizing s names i with
  | nil =>
    obtain ⟨_,same⟩ := pure_ok.mp called
    exact same ▸ .done s
  | cons step rest ih =>
    obtain ⟨next,u,ran,called⟩ := bind_ok.mp called
    exact (runStep_builds ran).append (ih called)

theorem bindInputs_gains {inputs : List (String × Input)} :
    Does (Gains (WithSplits "concat"))
      (inputs.foldlM (fun names input => bindInput names input.1 input.2) names) s := by
  induction inputs generalizing s names with
  | nil => exact .of_pure _
  | cons input rest ih =>
    rw [List.foldlM_cons]
    refine .of_bind (.of_bind inputStream_gains fun pipe _ _ => ?_) fun _ _ _ => ih
    split
    · exact .of_bind (.of_setMedia (fun _ _ _ => updatePipe_gains) ..) fun _ _ _ =>
        .of_same (leaves_bind_name ..)
    · exact .of_same (leaves_bind_name ..)

theorem build_builds {script : Script} {exports : List (String × PipeId)}
    (called : script.build s = .ok exports t) : Builds script.uses s t := by
  obtain ⟨names,u,bound,called⟩ := bind_ok.mp called
  obtain ⟨all,v,ran,called⟩ := bind_ok.mp called
  have still : leaves (script.exports.mapM fun pair => do return (pair.1,← all.resolve pair.2)) v = v :=
    leaves_mapM (fun _ => leaves_check (leaves_resolve_name ..) fun _ _ => rfl) _
  obtain rfl := Account.same_of_ok still called
  exact .aside (bindInputs_gains.gains bound) (runSteps_builds ran)

end Scripts
section Placements
variable {script : Script} {s t : Session} {exports : List (String × PipeId)}

/-- A first filter whose name is an entry point is expanded by it, and carries no instance. Any other
filter stays an operation of its own name, entry point or not. So the name of an entry point is that
of an operation only if the graph inserts such an operation itself, an entry point places it, or a
filter that is not the first of its step has that name. -/
theorem entry_names_placed (built : script.build s = .ok exports t) :
    (∀ before use after name, script.uses = before ++ (true,use) :: after → use.name = some name →
      (s.catalog.entry? name).isSome = true → use.id = none ∧ ∃ inputs args chain v w,
        Builds before s v ∧ use.args.mapM Argument.ofJson = .ok args ∧
        Session.invoke name inputs args v = .ok chain w ∧ Builds after w t) ∧
    (∀ before use after name, script.uses = before ++ (false,use) :: after → use.name = some name →
      ∃ chain op next v w, Builds before s v ∧ use.Makes v op ∧
        Session.extend chain op v = .ok next w ∧ Builds after w t ∧
        v.operations.size < t.operations.size ∧ (t.operation v.operations.size).name = name) ∧
    ∀ o, s.operations.size ≤ o → o < t.operations.size →
      (s.catalog.entry? (t.operation o).name).isSome = true →
      (t.operation o).name ∈ ownNames ∨
      (∃ use, (false,use) ∈ script.uses ∧ use.name = some (t.operation o).name) ∨
      ∃ before use after name inputs args chain v w, script.uses = before ++ (true,use) :: after ∧
        use.name = some name ∧ (s.catalog.entry? name).isSome = true ∧ Builds before s v ∧
        Session.invoke name inputs args v = .ok chain w ∧ v.operations.size ≤ o ∧
        o < w.operations.size := by
  have builds := build_builds built
  refine ⟨fun before use after name written named registered => ?_,
    fun before use after name written named => ?_,fun o old inside registered => ?_⟩
  · rw [written] at builds
    obtain ⟨v,w,start,laid,rest⟩ := builds.cut
    rw [← start.gains.catalog] at registered
    cases laid with
    | entry inputs chain title _ noId read invoked =>
      obtain rfl := Option.some.inj (title.symm.trans named)
      exact ⟨noId,inputs,_,chain,v,w,start,read,invoked,rest⟩
    | operation plain => simp [plain rfl name named] at registered
  · rw [written] at builds
    obtain ⟨v,w,start,laid,rest⟩ := builds.cut
    cases laid with
    | @operation _ _ op _ makes places =>
      obtain ⟨inside,placed⟩ := places.lays
      obtain ⟨extending,_⟩ | ⟨_,chain,next,extended⟩ := places
      · cases extending
      refine ⟨chain,op,next,v,w,start,makes,extended,rest,Nat.lt_of_lt_of_le inside rest.gains.size,?_⟩
      rw [rest.gains.kept inside,placed]
      rcases makes.named_or_own with title | ⟨unnamed,_⟩
      · exact Option.some.inj (title.symm.trans named)
      · simp [unnamed] at named
  · rcases builds.origin old inside with
      placed | ⟨before,first,use,after,v,w,written,start,laid,rest,low,high⟩
    · exact .inl (own_of_withSplits (by decide) placed)
    · have catalog := start.gains.catalog
      rw [rest.gains.kept high] at registered ⊢
      rcases laid.named low high with
        own | ⟨title,free⟩ | ⟨rfl,name,inputs,args,chain,title,known,invoked⟩
      · exact .inl own
      · cases first with
        | true => simp [← catalog,free rfl] at registered
        | false => exact .inr (.inl ⟨use,by rw [written]; simp,title⟩)
      · exact .inr (.inr ⟨before,use,after,name,inputs,args,chain,v,w,written,title,
          catalog ▸ known,start,invoked,low,high⟩)

def discarding : Script where
  inputs := [("in",⟨"0:v",none⟩)]
  steps := [.chain ["in"] [⟨some "split",none,[],[],none⟩] ["a","b"],
    .chain ["a"] [⟨some "null",none,[],[],none⟩,⟨some "discard",none,[],[],none⟩] []]
  exports := [("out","b")]

theorem entry_names_placed_discarding : ∃ exports t,
    discarding.build (.new 0 .builtin) = .ok exports t ∧
    (∃ inputs args chain v w, Session.invoke "split" inputs args v = .ok chain w) ∧
    ∃ o < t.operations.size, (t.operation o).name = "discard" := by
  have runs : succeeds discarding.build (.new 0 .builtin) (fun _ _ => true) = true := by decide +kernel
  obtain ⟨exports,t,built,_⟩ := ok_of_succeeds runs
  obtain ⟨expands,leaks,_⟩ := entry_names_placed built
  obtain ⟨_,inputs,args,chain,v,w,_,_,invoked,_⟩ := expands [] _ _ "split" rfl rfl rfl
  obtain ⟨_,_,_,u,_,_,_,_,_,inside,same⟩ := leaks [_,_] _ [] "discard" rfl rfl
  exact ⟨exports,t,built,⟨inputs,args,chain,v,w,invoked⟩,_,inside,same⟩

/-- An entry point that is no filter becomes an operation where it is not the first filter. -/
theorem entry_name_leaks : ∃ exports t, discarding.build (.new 0 .builtin) = .ok exports t ∧
    (Catalog.builtin.entry? "discard").isSome = true ∧ Catalog.builtin.get? "discard" = none ∧
    (t.operation 2).name = "discard" := by
  have runs : succeeds discarding.build (.new 0 .builtin)
      (fun _ t => decide ((t.operation 2).name = "discard")) = true := by decide +kernel
  obtain ⟨exports,t,built,placed⟩ := ok_of_succeeds runs
  exact ⟨exports,t,built,rfl,by decide +kernel,of_decide_eq_true placed⟩

theorem openChain_commands {inputs : List PipeId} {use : FilterUse} {name : String}
    (named : use.name = some name) (registered : (s.catalog.entry? name).isSome = true)
    (commands : List TimedInterval) :
    openChain inputs { use with commands := commands } s = openChain inputs use s := by
  obtain ⟨entry,found⟩ := Option.isSome_iff_exists.mp registered
  have looked : (get : Build Session) s = .ok s s := get_ok.mpr ⟨rfl,rfl⟩
  rw [openChain,openChain,run_bind looked,run_bind looked]
  simp only [named,Option.getD_some,found]

/-- A filter of a script that is built has a name or commands and not both, and its commands become
an operation that carries their text. Only the first filter of a step may have both, if its name is an
entry point; its commands are not looked at then. -/
theorem filters_exclusive (built : script.build s = .ok exports t) :
    ∀ before first use after, script.uses = before ++ (first,use) :: after →
      ∃ v w, Builds before s v ∧ Builds after w t ∧
        ((use.name.isSome = true ∧ use.commands = []) ∨
        (use.name = none ∧ use.commands ≠ [] ∧ ∃ list text op, schedule use.commands = .ok list ∧
          list.text v = .ok text ∧ op.args = text ∧ (op.name = "sendcmd" ∨ op.name = "asendcmd") ∧
          Places first op v w ∧ v.operations.size < t.operations.size ∧
          (t.operation v.operations.size).name = op.name) ∨
        (first = true ∧ use.commands ≠ [] ∧ use.id = none ∧ ∃ name, use.name = some name ∧
          (s.catalog.entry? name).isSome = true ∧ ∀ inputs commands,
            openChain inputs { use with commands := commands } v = openChain inputs use v)) := by
  intro before first use after written
  have builds := build_builds built
  rw [written] at builds
  obtain ⟨v,w,start,laid,rest⟩ := builds.cut
  refine ⟨v,w,start,rest,?_⟩
  cases laid with
  | entry inputs chain named registered noId read invoked =>
    by_cases plain : use.commands = []
    · exact .inl ⟨by rw [named]; rfl,plain⟩
    · refine .inr (.inr ⟨rfl,plain,noId,_,named,start.gains.catalog ▸ registered,fun inputs commands => ?_⟩)
      exact openChain_commands named registered commands
  | operation _ makes places =>
    rcases makes.exclusive with named | ⟨unnamed,given,sender,list,read,shown⟩
    · exact .inl named
    · obtain ⟨inside,same⟩ := places.lays
      refine .inr (.inl ⟨unnamed,given,list,_,_,read,shown,rfl,sender,places,?_,?_⟩)
      · exact Nat.lt_of_lt_of_le inside rest.gains.size
      · rw [rest.gains.kept inside,same]

def commanding : Script where
  inputs := [("in",⟨"0:v",none⟩)]
  steps := [.chain ["in"] [⟨some "null",none,[],[],none⟩,
      ⟨none,none,[],[⟨.text "1",none,[⟨[],"null","ping",none⟩]⟩],some .video⟩] ["timed"],
    .chain ["timed"] [⟨some "split",none,[],[⟨.text "2",none,[⟨[],"null","ping",none⟩]⟩],none⟩]
      ["a","b"]]
  exports := [("left","a"),("right","b")]

theorem filters_exclusive_commanding : ∃ exports t,
    commanding.build (.new 0 .builtin) = .ok exports t ∧
    ∃ list text op v w, schedule [⟨.text "1",none,[⟨[],"null","ping",none⟩]⟩] = .ok list ∧
      list.text v = .ok text ∧ op.args = text ∧ (op.name = "sendcmd" ∨ op.name = "asendcmd") ∧
      Places false op v w ∧ v.operations.size < t.operations.size ∧
      (t.operation v.operations.size).name = op.name := by
  have runs : succeeds commanding.build (.new 0 .builtin) (fun _ _ => true) = true := by decide +kernel
  obtain ⟨exports,t,built,_⟩ := ok_of_succeeds runs
  obtain ⟨v,w,_,_,named | ⟨_,_,list,text,op,sent⟩ | both⟩ := filters_exclusive built [_] _ _ [_] rfl
  · cases named.1
  · exact ⟨exports,t,built,list,text,op,v,w,sent⟩
  · cases both.1

/-- A split with commands is built, and no operation sends them. -/
theorem commands_dropped : ∃ exports t, commanding.build (.new 0 .builtin) = .ok exports t ∧
    (∃ use, (true,use) ∈ commanding.uses ∧ use.name = some "split" ∧ use.commands ≠ []) ∧
    t.operations.toList.map (fun op => (op.name,op.args)) =
      [("null",""),("sendcmd","1 null ping"),("split","2")] := by
  have runs : succeeds commanding.build (.new 0 .builtin) (fun _ t =>
      decide (t.operations.toList.map (fun op => (op.name,op.args)) =
        [("null",""),("sendcmd","1 null ping"),("split","2")])) = true := by decide +kernel
  obtain ⟨exports,t,built,placed⟩ := ok_of_succeeds runs
  refine ⟨exports,t,built,⟨⟨some "split",none,[],[⟨.text "2",none,[⟨[],"null","ping",none⟩]⟩],none⟩,?_⟩,
    of_decide_eq_true placed⟩
  exact ⟨.tail _ (.tail _ (.head _)),rfl,by simp⟩

end Placements
end MediaGraph.Script
