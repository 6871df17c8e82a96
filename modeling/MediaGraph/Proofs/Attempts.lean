import MediaGraph.Proofs.Groups

/-! Calls that get as far as they get.
Whatever a call does to readers and to the pipes that keep track of them it does in single steps that keep
the lists right. All that is asked of its handles is that no chain is a split of the graph's own. -/
namespace MediaGraph.Session
open Relation

/-! Steps on which no reader moves. -/

section Standing
variable {s t : Session}

theorem Still.of_pipes (readers : t.readers = s.readers) (operations : t.operations = s.operations)
    (stages : t.stages = s.stages) (size : s.pipes.size ≤ t.pipes.size)
    (shared : ∀ p, p < s.pipes.size → (t.pipe p).shared = (s.pipe p).shared)
    (group : ∀ p, (t.pipe p).readers = (s.pipe p).readers ∧ (t.pipe p).splitter = (s.pipe p).splitter) :
    Still s t := by
  have stage (i : Nat) : t.stage i = s.stage i := by rw [Session.stage,stages]; rfl
  have reader (r : Nat) : t.reader r = s.reader r := by rw [Session.reader,readers]; rfl
  have operation (o : Nat) : t.operation o = s.operation o := by rw [Session.operation,operations]; rfl
  constructor
  case readers => rw [readers]
  case reader => exact fun r => by rw [reader]; exact ⟨rfl,rfl⟩
  case resolved => exact fun r resolved => by rw [reader]; exact resolved
  case pipes => exact size
  case shared => exact shared
  case group => exact group
  case stages => rw [stages]
  case stage => exact fun i => by rw [stage]
  case outputs => exact fun i p member => .inl (stage i ▸ member)
  case operation => exact fun o => by rw [operation]; exact ⟨rfl,rfl⟩

theorem Still.of_same (readers : t.readers = s.readers) (operations : t.operations = s.operations)
    (stages : t.stages = s.stages) (pipes : t.pipes = s.pipes) : Still s t := by
  have pipe (p : Nat) : t.pipe p = s.pipe p := by rw [Session.pipe,pipes]; rfl
  refine .of_pipes readers operations stages (Nat.le_of_eq (by rw [pipes])) (fun p _ => ?_) fun p => ?_
  · rw [pipe]
  · rw [pipe]
    exact ⟨rfl,rfl⟩

theorem Still.of_pipe (i : Nat) {f : Pipe → Pipe}
    (same : f (s.pipe i) = { f (s.pipe i) with
      readers := (s.pipe i).readers, splitter := (s.pipe i).splitter, shared := (s.pipe i).shared }) :
    Still s (s.modifyPipe i f) := by
  have pipes (q : Nat) := pipe_modifyPipe s i f q
  refine .of_pipes rfl rfl rfl (Nat.le_of_eq Array.size_modify.symm) (fun p _ => ?_) fun p => ?_
  · rw [pipes]
    split
    next here => rw [here.1,same]
    next => rfl
  · rw [pipes]
    split
    next here => rw [here.1,same]; exact ⟨rfl,rfl⟩
    next => exact ⟨rfl,rfl⟩

theorem Still.of_push {new : Pipe} (readers : t.readers = s.readers)
    (operations : t.operations = s.operations) (stages : t.stages = s.stages)
    (pipes : t.pipes = s.pipes.push new) (bare : new.readers = [] ∧ new.splitter = none) : Still s t := by
  have pipe (q : Nat) : t.pipe q = if q = s.pipes.size then new else s.pipe q := by
    rw [Session.pipe,pipes]
    exact getD_push ..
  refine .of_pipes readers operations stages (by simp [pipes]) (fun p old => ?_) fun p => ?_
  · rw [pipe,if_neg (Nat.ne_of_lt old)]
  · rw [pipe]
    split
    next last =>
      subst last
      simp [Session.pipe,Pipe.anonymous,bare]
    next => exact ⟨rfl,rfl⟩

theorem Still.of_outputs (i : Nat) {outputs : Array Nat}
    (inside : ∀ p ∈ outputs, p ∈ (s.stage i).outputs ∨ p < s.pipes.size) :
    Still s (s.modifyStage i fun stage => { stage with outputs := outputs }) := by
  have stages (j : Nat) : (s.modifyStage i fun stage => { stage with outputs := outputs }).stage j =
      if j = i ∧ j < s.stages.size then { s.stage j with outputs := outputs } else s.stage j :=
    getD_modify ..
  constructor
  case readers => rfl
  case reader => exact fun _ => ⟨rfl,rfl⟩
  case resolved => exact fun _ resolved => resolved
  case pipes => exact Nat.le_refl _
  case shared => exact fun _ _ => rfl
  case group => exact fun _ => ⟨rfl,rfl⟩
  case stages => exact Array.size_modify
  case stage =>
    intro j
    rw [stages]
    split <;> rfl
  case outputs =>
    intro j p member
    rw [stages] at member
    split at member
    next here => exact here.1 ▸ inside p member
    next => exact .inl member
  case operation => exact fun _ => ⟨rfl,rfl⟩

theorem Still.of_arguments (o : Nat) (args : List Argument) : Still s (s.putArguments o args) := by
  have same : Still s s := .of_same rfl rfl rfl rfl
  refine { same with operation := fun k => ?_ }
  rw [operation_putArguments]
  split <;> exact ⟨rfl,rfl⟩

theorem Still.of_resolved (r : Nat) : Still s (s.markResolved r) := by
  have same : Still s s := .of_same rfl rfl rfl rfl
  have readers (x : Nat) : (s.markResolved r).reader x =
      if x = r ∧ x < s.readers.size then { s.reader x with resolved := true } else s.reader x :=
    getD_modify ..
  refine { same with readers := Array.size_modify, reader := fun x => ?_, resolved := fun x yes => ?_ }
  · rw [readers]
    split <;> exact ⟨rfl,rfl⟩
  · rw [readers]
    split
    · rfl
    · exact yes

theorem addOutput_regroups (i : Nat) (op : Operation) (s : Session) :
    ReflTransGen Regroup s (s.addOutput i op) := by
  let v := s.addAnonymous fun pipe =>
    { pipe with
      hint := some s!"{op.name}.output.{(s.stage i).outputs.size}"
      media := op.outputs.media (s.stage i).outputs.size
      fed := true }
  have made : Regroup s v := .still (.of_push rfl rfl rfl rfl ⟨rfl,rfl⟩)
  have put : Regroup v (v.modifyStage i fun stage =>
      { stage with outputs := (v.stage i).outputs.push s.pipes.size }) := by
    refine .still (.of_outputs i fun p member => ?_)
    rcases Array.mem_push.mp member with old | rfl
    · exact .inl old
    · exact .inr (by simp [v,addAnonymous])
  have same : v.modifyStage i (fun stage =>
      { stage with outputs := (v.stage i).outputs.push s.pipes.size }) = s.addOutput i op := by
    change { v with stages := _ } = { v with stages := _ }
    rw [modify_congr v.stages _ (fun stage => { stage with outputs := stage.outputs.push s.pipes.size })
      .empty i rfl]
  exact same ▸ .tail (.single made) put

end Standing

/-! Programs. -/

/-- A program takes its steps as far as it gets, and if it gets to its end, what it answers is good. -/
structure Attains {α : Type} (good : α → Session → Prop) (x : Build α) (s : Session) : Prop where
  does : Does Regroup x s
  good : ∀ a t, x s = .ok a t → good a t

namespace Attains
variable {α β : Type} {fine : α → Session → Prop} {good : β → Session → Prop} {s : Session}

theorem of_does {x : Build α} (does : Does Regroup x s) : Attains (fun _ _ => True) x s :=
  ⟨does,fun _ _ _ => trivial⟩

theorem of_pure {b : β} (holds : good b s) : Attains good (pure b) s := by
  refine ⟨.of_pure _,fun a t called => ?_⟩
  obtain ⟨rfl,rfl⟩ := pure_ok.mp called
  exact holds

theorem of_throw (e : GraphError) : Attains good (throw e) s :=
  ⟨.of_throw e,fun _ _ called => (throw_ok.mp called).elim⟩

theorem of_check {x : Build α} {f : α → Build β} (still : leaves x s = s)
    (next : ∀ a, x s = .ok a s → Attains good (f a) s) : Attains good (x >>= f) s := by
  refine ⟨.of_check still fun a called => (next a called).does,fun b u called => ?_⟩
  obtain ⟨a,t,checked,rest⟩ := bind_ok.mp called
  obtain rfl : t = s := (leaves_ok checked).symm.trans still
  exact (next a checked).good b u rest

theorem of_get {f : Session → Build β} (next : Attains good (f s) s) : Attains good (get >>= f) s := by
  refine .of_check rfl fun t got => ?_
  obtain ⟨rfl,_⟩ := get_ok.mp got
  exact next

theorem of_guard {call : String} {f : Unit → Build β} (next : Attains good (f ()) s) :
    Attains good (requireOpen call >>= f) s :=
  .of_check (leaves_requireOpen call) fun _ _ => next

theorem of_raise {e : GraphError} {f : α → Build β} : Attains good ((throw e : Build α) >>= f) s :=
  ⟨.of_raise,fun b u called => by
    obtain ⟨_,_,raised,_⟩ := bind_ok.mp called
    exact (throw_ok.mp raised).elim⟩

theorem of_branch {c : Prop} [Decidable c] {x y : Build β} (yes : c → Attains good x s)
    (no : ¬c → Attains good y s) : Attains good (if c then x else y) s := by
  split
  next holds => exact yes holds
  next fails => exact no fails

theorem of_bind {x : Build α} {f : α → Build β} (grouped : s.Grouped) (first : Attains fine x s)
    (next : ∀ a t, fine a t → t.Grouped → Endures s t → Attains good (f a) t) :
    Attains good (x >>= f) s := by
  have later (a : α) (t : Session) (called : x s = .ok a t) : Attains good (f a) t :=
    next a t (first.good a t called) (grouped.steps (first.does.ok called))
      (endures_of_regroups (first.does.ok called))
  refine ⟨.of_bind first.does fun a t called => (later a t called).does,fun b u called => ?_⟩
  obtain ⟨a,t,began,called⟩ := bind_ok.mp called
  exact (later a t began).good b u called

theorem of_modify {f : Session → Session} (many : ReflTransGen Regroup s (f s)) :
    Attains (fun _ t => t = f s) (modify f) s :=
  ⟨.of_modify many,fun _ _ called => modify_ok.mp called⟩

theorem mono {x : Build β} {wider : β → Session → Prop} (attains : Attains good x s)
    (wide : ∀ b t, Endures s t → good b t → wider b t) : Attains wider x s :=
  ⟨attains.does,fun b t called =>
    wide b t (endures_of_regroups (attains.does.ok called)) (attains.good b t called)⟩

end Attains

section Parts
variable {s : Session}

theorem updatePipe_regroups {i : Nat} {f : Pipe → Except GraphError Pipe}
    (kept : ∀ p q, f p = .ok q →
      q = { q with readers := p.readers, splitter := p.splitter, shared := p.shared }) :
    Does Regroup (updatePipe i f) s := by
  refine .of_get ?_
  split
  next q changed => exact .of_modify (.single (.still (.of_pipe i (kept _ q changed))))
  next => exact .of_throw _

theorem mark_regroups (i : Nat) (media : Media) (s : Session) :
    Does Regroup (updatePipe i fun p => p.mark media) s :=
  updatePipe_regroups fun p q marked => by rw [mark_eq marked]

theorem take_regroups {i : Nat} : Does Regroup (updatePipe i Pipe.take) s := by
  refine updatePipe_regroups fun p q took => ?_
  simp only [Pipe.take] at took
  split at took
  · cases took
    rfl
  · split at took <;> cases took
    rfl

theorem feed_regroups {i : Nat} : Does Regroup (updatePipe i Pipe.feed) s := by
  refine updatePipe_regroups fun p q fed => ?_
  simp only [Pipe.feed] at fed
  split at fed <;> cases fed
  rfl

theorem renameAt_regroups {i : Nat} {name : String} :
    Does Regroup (updatePipe i fun p => p.rename name) s := by
  refine updatePipe_regroups fun p q renamed => ?_
  simp only [Pipe.rename] at renamed
  split at renamed <;> cases renamed
  rfl

theorem addOutputs_regroups (i : Nat) (op : Operation) (count : Nat) (s : Session) :
    ReflTransGen Regroup s (s.addOutputs i op count) := by
  induction count generalizing s with
  | zero => exact .refl
  | succ count ih => exact (addOutput_regroups i op s).trans (ih _)

theorem outputAt_regroups (i n : Nat) (s : Session) : Does Regroup (outputAt i n) s := by
  refine .of_get ?_
  split
  next => exact .of_pure _
  next op _ =>
    split
    next => exact .of_pure _
    next =>
      refine .of_check (leaves_requireOpen _) fun _ _ => .of_check (leaves_requireTail i) fun _ _ => ?_
      refine .of_branch (fun _ => .of_pure _) fun _ => .of_branch (fun _ => .of_raise) fun _ => ?_
      exact .of_bind (.of_modify (addOutputs_regroups ..)) fun _ _ _ => .of_get (.of_pure _)

theorem output_attains (grouped : s.Grouped) (chain : ChainId) (n : Nat) :
    Attains (fun id t => id.index < t.pipes.size) (output chain n) s := by
  refine ⟨.of_output outputAt_regroups ..,fun id t called => ?_⟩
  obtain ⟨_,_,p,asked,rfl⟩ := output_ok.mp called
  have groupedT := grouped.steps ((outputAt_regroups chain.index n s).ok asked)
  rcases outputAt_ok.mp asked with ⟨_,there,rfl⟩ | ⟨_,_,⟨q,there,same,rfl⟩ | ⟨_,_,_,⟨_,none,_⟩ | made⟩⟩
  · obtain ⟨r,member,rfl⟩ := List.mem_map.mp (List.mem_of_getElem? there.symm)
    exact grouped.inside r (((grouped.pads _).2 r).mp member).1
  · cases same
    exact grouped.carried _ p (Array.mem_of_getElem? there)
  · cases none
  · exact groupedT.carried _ p (Array.mem_of_getElem? made.2.2.2.symm)

/-! Readers get their pipes. -/

def Fresh (p : Nat) (s : Session) : Prop := p < s.pipes.size ∧ (s.pipe p).shared = false

theorem Fresh.later {p : Nat} {t : Session} (fresh : Fresh p s) (endures : Endures s t) : Fresh p t :=
  ⟨Nat.lt_of_lt_of_le fresh.1 endures.pipes,(endures.shared p fresh.1).trans fresh.2⟩

theorem nextOutput_attains {i : Nat} (holds : (s.stage i).operation ≠ none) :
    Attains (fun answer t => ∀ p, answer = some p → Fresh p t)
      (outputAt i (s.stage i).outputs.size) s := by
  refine ⟨outputAt_regroups ..,?_⟩
  rintro _ t called p rfl
  rcases outputAt_ok.mp called with ⟨empty,_⟩ | ⟨op,_,⟨q,there,_⟩ | ⟨_,_,_,⟨_,none,_⟩ | made⟩⟩
  · exact absurd (by simpa [operationAt] using empty) holds
  · simp at there
  · cases none
  · obtain ⟨_,_,rfl,answered⟩ := made
    rw [Nat.add_sub_cancel_left] at answered ⊢
    change some p = ((s.addOutput i op).stage i).outputs[_]? at answered
    rw [stage_addOutput s i op i (inside_of_holds holds),if_pos rfl,Array.getElem?_push_size] at answered
    cases answered
    change _ < (s.addOutput i op).pipes.size ∧ ((s.addOutput i op).pipe _).shared = false
    rw [pipe_addOutput,if_pos rfl]
    exact ⟨by simp [addOutput,addAnonymous,modifyStage],rfl⟩

theorem nextBranch_attains {i : Nat} (grouped : s.Grouped) (holds : (s.stage i).operation ≠ none) :
    Attains Fresh (nextBranch i) s := by
  refine .of_get (.of_bind grouped (nextOutput_attains holds) fun answer t fresh groupedT _ => ?_)
  cases answer with
  | none => exact .of_get (.of_throw _)
  | some out =>
    have finish {v : Session} (groupedV : v.Grouped) (fresh : Fresh out v) : Attains Fresh (do
        let s ← get
        let media := ((s.inputPipes i).head?.map fun source => (s.pipe source).media)
        updatePipe out fun p => p.mark (media.getD .unknown)
        updatePipe out Pipe.take
        return out) v := by
      refine .of_get (.of_bind groupedV (.of_does (mark_regroups ..)) fun _ _ _ groupedW first => ?_)
      refine .of_bind groupedW (.of_does take_regroups) fun _ _ _ _ second => .of_pure ?_
      exact (fresh.later first).later second
    have fresh := fresh out rfl
    cases (s.stage i).operation with
    | none => exact finish groupedT fresh
    | some op =>
      refine .of_bind groupedT (.of_modify (.single (.still (.of_arguments ..)))) fun _ _ _ groupedV later => ?_
      exact finish groupedV (fresh.later later)

theorem swapNames_regroups (a b : Nat) (s : Session) : ReflTransGen Regroup s (s.swapNames a b) :=
  .tail (.single (.still (.of_pipe a rfl))) (.still (.of_pipe b rfl))

theorem rebind_regroups {r target : Nat} (free : s.Free r) (fresh : Fresh target s) :
    ReflTransGen Regroup s (s.rebind r target) := by
  have moved : ReflTransGen Regroup s (s.redirect r target) :=
    .single (.redirect r target free fresh.1 fresh.2)
  have same : s.rebind r target =
      if (s.reader r).owner = .exported then (s.redirect r target).swapNames (s.reader r).pipe target
      else s.redirect r target := rfl
  rw [same]
  split
  · exact moved.trans (swapNames_regroups ..)
  · exact moved

theorem moveReaders_attains {i p : Nat} {readers : List Nat} (grouped : s.Grouped)
    (behind : (s.pipe p).splitter = some i) (free : ∀ r ∈ readers, s.Free r) :
    Attains (fun _ t => (t.pipe p).splitter = some i) (moveReaders i readers) s := by
  induction readers generalizing s with
  | nil => exact .of_pure behind
  | cons r rest ih =>
    refine .of_bind grouped (nextBranch_attains grouped (grouped.splits p i behind).holds)
      fun out t fresh groupedT endures => ?_
    have moved := rebind_regroups (endures.free (free r (by simp))) fresh
    refine .of_bind groupedT (.of_modify moved) fun _ u _ groupedU more => ?_
    have later := endures.trans more
    exact ih groupedU (later.splitter p i behind) fun x member => later.free (free x (by simp [member]))

theorem Grouped.free_of_direct {p i r : Nat} (grouped : s.Grouped) (own : (s.pipe p).shared = false)
    (behind : (s.pipe p).splitter = some i) (member : r ∈ s.directReaders p i) : s.Free r := by
  obtain ⟨listed,kept⟩ := List.mem_filter.mp member
  simp only [Bool.and_eq_true,bne_iff_ne] at kept
  obtain ⟨inside,points⟩ := ((grouped.group p own).2 r).mp listed
  refine ⟨inside,fun j owner => ⟨grouped.owner_inside inside owner,?_⟩⟩
  rintro ⟨q,other⟩
  obtain ⟨x,inputs,source,_⟩ := (grouped.splits q j other).input
  have there := ((grouped.pads j).2 r).mpr ⟨inside,owner⟩
  rw [inputs] at there
  obtain rfl := List.mem_singleton.mp there
  obtain rfl : p = q := points.symm.trans source
  obtain rfl : i = j := Option.some.inj (behind.symm.trans other)
  exact kept.2 owner

/-- A split goes behind a pipe, and the readers that had the pipe move to outputs of it. -/
theorem insertSplitter_attains {p : Nat} (grouped : s.Grouped) (fresh : Fresh p s)
    (first : (s.pipe p).splitter = none) :
    Attains (fun i t => (t.pipe p).splitter = some i) (insertSplitter p) s := by
  refine .of_get ?_
  dsimp only
  split
  next => exact .of_throw _
  next name known =>
    have attached : Regroup s (s.attach p name) :=
      .attach p name fresh.1 fresh.2 first (divider_of_filter known)
    rw [← attach_eq] at attached
    refine .of_bind grouped (.of_modify (.single attached)) fun _ t same groupedT endures => .of_get ?_
    rw [attach_eq] at same
    have behind : (t.pipe p).splitter = some s.stages.size := by
      rw [same,splitter_attach s p name p fresh.1,if_pos rfl]
    have own := (fresh.later endures).2
    refine .of_bind groupedT (moveReaders_attains groupedT behind fun r =>
      groupedT.free_of_direct own behind) fun _ _ still _ _ => .of_pure still

theorem branch_attains {p : Nat} (grouped : s.Grouped) (fresh : Fresh p s) :
    Attains Fresh (branch p) s := by
  refine .of_get ?_
  split
  next i behind => exact nextBranch_attains grouped (grouped.splits p i behind).holds
  next first =>
    refine .of_bind grouped (insertSplitter_attains grouped fresh first) fun i t behind groupedT _ => ?_
    exact nextBranch_attains groupedT (groupedT.splits p i behind).holds

/-- A reader takes its pipe or moves to a branch of it, or fails on the way. -/
theorem resolve_attains {r : Nat} (grouped : s.Grouped) (free : s.Free r) :
    Attains (fun _ _ => True) (resolve r) s := by
  have inside := grouped.inside r free.1
  refine .of_get (.of_branch (fun _ => ?_) fun busy => ?_)
  · exact .of_does (.of_bind take_regroups fun _ t _ => .of_modify (.single (.still (.of_resolved r))))
  · have own : (s.pipe (s.reader r).pipe).shared = false := by
      simp only [Bool.or_eq_true,not_or,Bool.not_eq_true] at busy
      exact busy.1
    refine .of_bind grouped (branch_attains grouped ⟨inside,own⟩) fun out t fresh groupedT first => ?_
    refine .of_bind groupedT (.of_modify (.single (.still (.of_resolved r)))) fun _ u _ _ second => ?_
    exact .of_does (.of_modify (rebind_regroups ((first.trans second).free free) (fresh.later second)))

theorem resolveAll_attains {readers : List Nat} (grouped : s.Grouped)
    (free : ∀ r ∈ readers, s.Free r) : Attains (fun _ _ => True) (resolveAll readers) s := by
  induction readers generalizing s with
  | nil => exact .of_pure trivial
  | cons r rest ih =>
    refine .of_bind grouped (resolve_attains grouped (free r (by simp))) fun _ t _ groupedT endures => ?_
    exact ih groupedT fun x member => endures.free (free x (by simp [member]))

end Parts
end MediaGraph.Session
