import MediaGraph.Concat
import MediaGraph.Proofs.Accounts
import MediaGraph.Proofs.Calls

/-! Runs of calls, as data and inside plans.
A list of calls can be run to see whether it is one that accounts allow. Plans and
concatenations are runs of calls as well, so that what holds of every account holds of
the sessions that they leave. -/
namespace MediaGraph

/-- The calls that fan out, chain up and close down, as scripts make them. -/
def Call.Forward {reply : Reply} : Call reply → Prop
  | .inputStream _ => True
  | .setMedia _ _ => True
  | .start _ => True
  | .extend _ _ => True
  | .takeOutputs _ _ => True
  | .place _ _ => True
  | .splitChain _ _ => True
  | .discard _ => True
  | _ => False

namespace Account
open Session

structure Extends (a b : Account) : Prop where
  pipes : a.pipes ⊆ b.pipes
  chains : a.chains ⊆ b.chains
  operations : a.operations ⊆ b.operations

theorem Extends.refl (a : Account) : Extends a a :=
  ⟨List.Subset.refl _,List.Subset.refl _,List.Subset.refl _⟩

theorem Extends.trans {a b c : Account} (first : Extends a b) (second : Extends b c) :
    Extends a c where
  pipes := List.Subset.trans first.pipes second.pipes
  chains := List.Subset.trans first.chains second.chains
  operations := List.Subset.trans first.operations second.operations

theorem Extends.after {reply : Reply} (a : Account) (c : Call reply) (answer : reply.Value)
    (t : Session) : Extends a (a.after c answer t) :=
  ⟨List.subset_append_left ..,List.subset_append_left ..,List.subset_append_left ..⟩

variable {catalog : Catalog} {a b : Account} {t : Session}

instance {reply : Reply} (a : Account) (c : Call reply) : Decidable (a.Knows c) :=
  inferInstanceAs (Decidable (_ ∧ _ ∧ _))

/-- Makes calls in turn, as long as they succeed and name what was given before. -/
def run? : List ((reply : Reply) × Call reply) → Account → Option Account
  | [], a => some a
  | ⟨_,c⟩ :: rest, a =>
    match perform c a.session with
    | .ok answer t => if a.Knows c then run? rest (a.after c answer t) else none
    | .error _ _ => none

theorem Reached.run {calls : List ((reply : Reply) × Call reply)} (reached : Reached catalog a)
    (ran : run? calls a = some b) : Reached catalog b := by
  induction calls generalizing a with
  | nil => exact Option.some.inj ran ▸ reached
  | cons call rest ih =>
    obtain ⟨reply,c⟩ := call
    unfold run? at ran
    cases answered : perform c a.session with
    | error e t => simp [answered] at ran
    | ok answer t =>
      by_cases known : a.Knows c
      · simp only [answered,known,if_true] at ran
        exact ih (reached.call c answer t known answered) ran
      · simp [answered,known] at ran

theorem run?_append (first second : List ((reply : Reply) × Call reply)) (a : Account) :
    run? (first ++ second) a = (run? first a).bind (run? second) := by
  induction first generalizing a with
  | nil => rfl
  | cons call rest ih =>
    obtain ⟨reply,c⟩ := call
    simp only [List.cons_append,run?]
    split
    · split
      · exact ih _
      · rfl
    · rfl

theorem run?_last {calls : List ((reply : Reply) × Call reply)} {reply : Reply} {c : Call reply}
    (ran : run? (calls ++ [⟨reply,c⟩]) a = some b) :
    ∃ m answer t, run? calls a = some m ∧ m.Knows c ∧ perform c m.session = .ok answer t ∧
      b = m.after c answer t := by
  rw [run?_append] at ran
  obtain ⟨m,before,last⟩ := Option.bind_eq_some_iff.mp ran
  unfold run? at last
  cases answered : perform c m.session with
  | error e t => simp [answered] at last
  | ok answer t =>
    by_cases known : m.Knows c
    · simp only [answered,known,if_true,run?,Option.some.injEq] at last
      exact ⟨m,answer,t,before,known,answered,last.symm⟩
    · simp [answered,known] at last

/-- The accounts are what runs from a new session come to. -/
theorem reached_iff_run {catalog : Catalog} {a : Account} :
    Reached catalog a ↔ ∃ serial calls, run? calls (.new serial catalog) = some a := by
  constructor
  · intro reached
    induction reached with
    | new serial => exact ⟨serial,[],rfl⟩
    | @call a reply c answer t _ known answered ih =>
      obtain ⟨serial,calls,ran⟩ := ih
      refine ⟨serial,calls ++ [⟨reply,c⟩],?_⟩
      rw [run?_append,ran,Option.bind_some]
      simp [run?,answered,known]
  · rintro ⟨serial,calls,ran⟩
    exact (Reached.new serial).run ran

/-- A source whose output is scaled, and what comes out of it settled to be video. -/
def scaledSource : List ((reply : Reply) × Call reply) :=
  [⟨_,.start []⟩,⟨_,.extend ⟨0,0⟩ (.named "testsrc")⟩,⟨_,.output ⟨0,0⟩ 0⟩,
    ⟨_,.start [⟨0,0⟩]⟩,⟨_,.extend ⟨0,1⟩ (.named "scale")⟩,⟨_,.output ⟨0,1⟩ 0⟩,
    ⟨_,.setMedia ⟨0,1⟩ .video⟩]

theorem scaledSource_completes : ∃ a t, run? scaledSource (.new 0 .empty) = some a ∧
    a.Knows (.complete [("a",⟨0,1⟩),("b",⟨0,1⟩)]) ∧
    complete [("a",⟨0,1⟩),("b",⟨0,1⟩)] a.session = .ok () t := by
  have runs : (run? (scaledSource ++ [⟨_,.complete [("a",⟨0,1⟩),("b",⟨0,1⟩)]⟩])
      (.new 0 .empty)).isSome = true := by decide +kernel
  obtain ⟨b,ran⟩ := Option.isSome_iff_exists.mp runs
  obtain ⟨a,_,t,before,known,completed,_⟩ := run?_last ran
  exact ⟨a,t,before,known,completed⟩

/-! Plans. -/

theorem Follows.reached {plan : Plan} {chain : ChainId} (follows : Follows a plan chain b)
    (reached : Reached catalog a) : Reached catalog b := by
  induction follows with
  | finish => exact reached
  | call c _ answer t _ _ known answered _ ih => exact ih (.call c answer t reached known answered)

theorem Follows.follow {plan : Plan} {chain : ChainId} (follows : Follows a plan chain b) :
    Session.follow plan a.session = .ok chain b.session := by
  induction follows with
  | finish => exact pure_ok.mpr ⟨rfl,rfl⟩
  | call c next answer t chain b _ answered _ ih =>
    simp only [Session.follow]
    exact bind_ok.mpr ⟨_,t,caught_ok.mpr (.inl ⟨answer,answered,rfl⟩),ih⟩

theorem Reached.invoke {name : String} {entry : EntryPoint} {inputs : List PipeId}
    {args : List Argument} {chain : ChainId} (reached : Reached catalog a)
    (isOpen : a.session.completed = false) (found : a.session.catalog.entry? name = some entry)
    (follows : Follows a (entry inputs args) chain b) :
    Session.invoke name inputs args a.session = .ok chain b.session ∧ Reached catalog b := by
  refine ⟨?_,follows.reached reached⟩
  simp only [Session.invoke,bind_ok,requireOpen_ok,get_ok,and_assoc,exists_and_left,
    exists_eq_left,exists_const]
  refine ⟨isOpen,?_⟩
  rw [found]
  exact follows.follow

/-! Builders make only some of the calls, and what those keep holds of what they leave. -/

/-- What forward calls keep. -/
def Closed (P : Account → Prop) : Prop :=
  ∀ {a reply} (c : Call reply) (answer : reply.Value) (t : Session), P a → c.Forward → a.Knows c →
    perform c a.session = .ok answer t → P (a.after c answer t)

theorem Reached.closed (catalog : Catalog) : Closed (Reached catalog) :=
  fun c answer t reached _ known answered => .call c answer t reached known answered

theorem firstMedia_ok {s : Session} {ids : List PipeId} {media : Media}
    (called : Concat.firstMedia ids s = .ok media t) : t = s := by
  induction ids with
  | nil => exact (pure_ok.mp called).2
  | cons id rest ih =>
    simp only [Concat.firstMedia,lookUp,bind_ok,pipeIndex_ok,get_ok,pure_ok,choice_ok,and_assoc,
      exists_and_left,exists_eq_left] at called
    obtain ⟨_,_,⟨_,more⟩ | ⟨_,_,same⟩⟩ := called
    · exact ih more
    · exact same

theorem inputs_subset (c : Concat) (order : List Nat) : c.inputs order ⊆ c.streams.flatten := by
  intro id member
  obtain ⟨segment,_,member⟩ := List.mem_flatMap.mp member
  obtain ⟨column,_,found⟩ := List.mem_filterMap.mp member
  obtain ⟨stream,there,listed⟩ := Option.bind_eq_some_iff.mp found
  exact List.mem_flatten.mpr ⟨stream,List.mem_of_getElem? there,List.mem_of_getElem? listed⟩

section Builders
variable {P : Account → Prop} (closed : Closed P)
include closed

theorem setMedia_closed {id : PipeId} {media : Media} {u : Unit} (holds : P a)
    (known : id ∈ a.pipes) (called : setMedia id media a.session = .ok u t) :
    ∃ b, P b ∧ b.session = t ∧ Extends a b := by
  let c := Call.setMedia id media
  have knows : a.Knows c :=
    ⟨by simpa [c,Call.pipes] using known,by simp [c,Call.chains],by simp [c,Call.operations]⟩
  exact ⟨a.after c u t,closed c u t holds trivial knows called,rfl,.after a c u t⟩

theorem markAll_closed {media : Media} {ids : List PipeId} {u : Unit}
    (holds : P a) (known : ids ⊆ a.pipes)
    (called : Concat.markAll media ids a.session = .ok u t) :
    ∃ b, P b ∧ b.session = t ∧ Extends a b := by
  induction ids generalizing a with
  | nil => exact ⟨a,holds,(pure_ok.mp called).2.symm,.refl a⟩
  | cons id rest ih =>
    obtain ⟨u,v,marked,called⟩ := bind_ok.mp called
    obtain ⟨b,holdsB,rfl,after⟩ :=
      setMedia_closed closed holds (known (List.mem_cons_self ..)) marked
    have later : rest ⊆ b.pipes := fun other member =>
      after.pipes (known (List.mem_cons_of_mem _ member))
    obtain ⟨c,holdsC,same,more⟩ := ih holdsB later called
    exact ⟨c,holdsC,same,after.trans more⟩

theorem markStream_closed {ids : List PipeId} {media : Media} (holds : P a)
    (known : ids ⊆ a.pipes) (called : Concat.markStream ids a.session = .ok media t) :
    ∃ b, P b ∧ b.session = t ∧ Extends a b := by
  obtain ⟨first,v,found,called⟩ := bind_ok.mp called
  obtain rfl := firstMedia_ok found
  have marked {kind : Media}
      (rest : (do Concat.markAll kind ids; return kind) a.session = .ok media t) :
      ∃ b, P b ∧ b.session = t ∧ Extends a b := by
    obtain ⟨_,w,all,done⟩ := bind_ok.mp rest
    obtain ⟨_,rfl⟩ := pure_ok.mp done
    exact markAll_closed closed holds known all
  cases first with
  | unknown => simp [bind_ok,get_ok,throw_ok] at called
  | video => exact marked called
  | audio => exact marked called
  | _ => simp [throw_ok] at called

theorem markStreams_closed {streams : List (List PipeId)} {media : List Media}
    (holds : P a) (known : streams.flatten ⊆ a.pipes)
    (called : Concat.markStreams streams a.session = .ok media t) :
    ∃ b, P b ∧ b.session = t ∧ Extends a b := by
  induction streams generalizing a media with
  | nil => exact ⟨a,holds,(pure_ok.mp called).2.symm,.refl a⟩
  | cons stream rest ih =>
    rw [List.flatten_cons] at known
    obtain ⟨_,v,marked,called⟩ := bind_ok.mp called
    obtain ⟨_,w,others,done⟩ := bind_ok.mp called
    obtain ⟨_,rfl⟩ := pure_ok.mp done
    obtain ⟨b,holdsB,rfl,first⟩ :=
      markStream_closed closed holds (List.append_subset.mp known).1 marked
    have later : rest.flatten ⊆ b.pipes :=
      List.Subset.trans (List.append_subset.mp known).2 first.pipes
    obtain ⟨c,holdsC,same,more⟩ := ih holdsB later others
    exact ⟨c,holdsC,same,first.trans more⟩

theorem takeOutputs_closed {chain : ChainId} {count : Nat} {ids : List PipeId} (holds : P a)
    (known : chain ∈ a.chains) (called : takeOutputs chain count a.session = .ok ids t) :
    ∃ b, P b ∧ b.session = t ∧ Extends a b ∧ ids ⊆ b.pipes := by
  let c := Call.takeOutputs chain count
  have knows : a.Knows c :=
    ⟨by simp [c,Call.pipes],by simpa [c,Call.chains] using known,by simp [c,Call.operations]⟩
  exact ⟨a.after c ids t,closed c ids t holds trivial knows called,rfl,.after a c ids t,
    List.subset_append_right ..⟩

theorem extend_closed {chain next : ChainId} {op : Operation} (holds : P a)
    (known : chain ∈ a.chains) (called : extend chain op a.session = .ok next t) :
    ∃ b, P b ∧ b.session = t ∧ Extends a b ∧ next ∈ b.chains := by
  let c := Call.extend chain op
  have knows : a.Knows c :=
    ⟨by simp [c,Call.pipes],by simpa [c,Call.chains] using known,by simp [c,Call.operations]⟩
  exact ⟨a.after c next t,closed c next t holds trivial knows called,rfl,.after a c next t,
    List.mem_append_right _ (List.mem_singleton.mpr rfl)⟩

theorem begin_closed {c : Call .chain} {chain : ChainId} (holds : P a) (forward : c.Forward)
    (pipes : c.pipes ⊆ a.pipes) (chains : c.chains = []) (operations : c.operations = [])
    (called : perform c a.session = .ok chain t) :
    ∃ b, P b ∧ b.session = t ∧ Extends a b ∧ chain ∈ b.chains := by
  have knows : a.Knows c := ⟨fun _ member => pipes member,by simp [chains],by simp [operations]⟩
  exact ⟨a.after c chain t,closed c chain t holds forward knows called,rfl,.after a c chain t,
    List.mem_append_right _ (List.mem_singleton.mpr rfl)⟩

theorem finalize_closed {c done : Concat} {outputs : List PipeId} (holds : P a)
    (known : c.streams.flatten ⊆ a.pipes) (answered : c.outputs.getD [] ⊆ a.pipes)
    (called : c.finalize a.session = .ok (done,outputs) t) :
    ∃ b, P b ∧ b.session = t ∧ Extends a b ∧ outputs ⊆ b.pipes := by
  unfold Concat.finalize at called
  cases already : c.outputs with
  | some before =>
    simp only [already,pure_ok,Prod.mk.injEq] at called
    obtain ⟨⟨_,rfl⟩,rfl⟩ := called
    exact ⟨a,holds,rfl,.refl a,by simpa [already] using answered⟩
  | none =>
    simp only [already,choice_ok,bind_ok,throw_ok,pure_ok,false_and,exists_false,and_false,
      false_or,Prod.mk.injEq] at called
    obtain ⟨_,media,v,marked,first,w,started,chain,x,extended,pads,y,taken,⟨_,rfl⟩,rfl⟩ := called
    obtain ⟨b,holdsB,rfl,extendsB⟩ := markStreams_closed closed holds known marked
    have inputs : c.inputs (Concat.padOrder media) ⊆ b.pipes :=
      List.Subset.trans (inputs_subset c _) (List.Subset.trans known extendsB.pipes)
    obtain ⟨b₁,holds₁,rfl,extends₁,known₁⟩ := begin_closed closed
      (c := .start (c.inputs (Concat.padOrder media))) holdsB trivial inputs rfl rfl started
    obtain ⟨b₂,holds₂,rfl,extends₂,known₂⟩ := extend_closed closed holds₁ known₁ extended
    obtain ⟨b₃,holds₃,rfl,extends₃,known₃⟩ := takeOutputs_closed closed holds₂ known₂ taken
    refine ⟨b₃,holds₃,rfl,extendsB.trans (extends₁.trans (extends₂.trans extends₃)),?_⟩
    intro id member
    obtain ⟨_,_,found⟩ := List.mem_filterMap.mp member
    exact known₃ (List.mem_of_getElem? found)

end Builders

theorem Reached.finalize {c done : Concat} {outputs : List PipeId} (reached : Reached catalog a)
    (known : c.streams.flatten ⊆ a.pipes) (answered : c.outputs.getD [] ⊆ a.pipes)
    (called : c.finalize a.session = .ok (done,outputs) t) :
    ∃ b, Reached catalog b ∧ b.session = t ∧ Extends a b ∧ outputs ⊆ b.pipes :=
  finalize_closed (.closed catalog) reached known answered called

end Account
end MediaGraph
