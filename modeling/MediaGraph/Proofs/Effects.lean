import Mathlib.Logic.Relation
import MediaGraph.Proofs.Calls

/-! What a call leaves, whether it succeeds or not.
A call that fails keeps what it did before it failed. So a program is opened from its
first step on: it takes a session along a relation if each of its steps does. -/
namespace MediaGraph.Session
open Relation

section Programs
variable {α β : Type} {step : Session → Session → Prop} {s t : Session}

def leaves (x : Build α) (s : Session) : Session :=
  match x s with
  | .ok _ t => t
  | .error _ t => t

/-- A program takes a session along steps of some kind, as far as it gets. -/
def Does (step : Session → Session → Prop) (x : Build α) (s : Session) : Prop :=
  ReflTransGen step s (leaves x s)

theorem leaves_ok {x : Build α} {a : α} (called : x s = .ok a t) : leaves x s = t := by
  simp [leaves,called]

theorem leaves_error {x : Build α} {e : GraphError} (failed : x s = .error e t) :
    leaves x s = t := by
  simp [leaves,failed]

theorem Does.of_same {x : Build α} (same : leaves x s = s) : Does step x s := by
  rw [Does,same]

theorem Does.ok {x : Build α} {a : α} (does : Does step x s) (called : x s = .ok a t) :
    ReflTransGen step s t := leaves_ok called ▸ does

theorem Does.of_pure (a : α) : Does step (pure a : Build α) s := .refl

theorem Does.of_throw (e : GraphError) : Does step (throw e : Build α) s := .refl

theorem Does.of_raise {e : GraphError} {f : α → Build β} :
    Does step ((throw e : Build α) >>= f) s := .refl

theorem Does.of_modify {f : Session → Session} (many : ReflTransGen step s (f s)) :
    Does step (modify f : Build Unit) s := many

theorem leaves_bind {x : Build α} {f : α → Build β} {a : α} (called : x s = .ok a t) :
    leaves (x >>= f) s = leaves (f a) t := by
  change (match EStateM.bind x f s with | .ok _ u => u | .error _ u => u) = _
  simp only [EStateM.bind,called]
  rfl

theorem leaves_bind_error {x : Build α} {f : α → Build β} {e : GraphError}
    (failed : x s = .error e t) : leaves (x >>= f) s = t :=
  leaves_error (bind_error.mpr (.inl failed))

theorem Does.of_bind {x : Build α} {f : α → Build β} (first : Does step x s)
    (next : ∀ a t, x s = .ok a t → Does step (f a) t) : Does step (x >>= f) s := by
  cases called : x s with
  | ok a t =>
    rw [Does,leaves_bind called]
    exact (first.ok called).trans (next a t called)
  | error e t =>
    rw [Does,leaves_bind_error called,← leaves_error called]
    exact first

theorem leaves_check {x : Build α} {f : α → Build β} (still : leaves x s = s)
    (next : ∀ a, x s = .ok a s → leaves (f a) s = s) : leaves (x >>= f) s = s := by
  cases called : x s with
  | ok a t =>
    obtain rfl : t = s := (leaves_ok called).symm.trans still
    rw [leaves_bind called]
    exact next a called
  | error e t =>
    rw [leaves_bind_error called]
    exact (leaves_error called).symm.trans still

theorem Does.of_check {x : Build α} {f : α → Build β} (still : leaves x s = s)
    (next : ∀ a, x s = .ok a s → Does step (f a) s) : Does step (x >>= f) s := by
  refine .of_bind (.of_same still) fun a t called => ?_
  obtain rfl : t = s := (leaves_ok called).symm.trans still
  exact next a called

theorem Does.of_get {f : Session → Build β} (next : Does step (f s) s) :
    Does step (get >>= f) s := by
  refine .of_check rfl fun t got => ?_
  obtain ⟨rfl,_⟩ := get_ok.mp got
  exact next

theorem Does.of_caught {x : Build α} {f : GraphError → Build α} (first : Does step x s)
    (next : ∀ e t, x s = .error e t → Does step (f e) t) : Does step (tryCatch x f) s := by
  have eq : (tryCatch x f : Build α) s =
      match x s with
      | .ok a t => .ok a t
      | .error e t => f e t := by
    change EStateM.tryCatch x f s = _
    delta EStateM.tryCatch
    cases x s <;> rfl
  cases called : x s with
  | ok a t =>
    rw [called] at eq
    rw [Does,leaves_ok eq]
    exact first.ok called
  | error e t =>
    have same : leaves (tryCatch x f) s = leaves (f e) t := by
      rw [leaves,eq,called]
      rfl
    rw [Does,same]
    have reached : ReflTransGen step s t := leaves_error called ▸ first
    exact reached.trans (next e t called)

theorem Does.of_map {x : Build α} {f : α → β} (first : Does step x s) : Does step (f <$> x) s := by
  have same : leaves (f <$> x) s = leaves x s := by
    change (match EStateM.map f x s with | .ok _ u => u | .error _ u => u) = _
    rw [EStateM.map,leaves]
    cases x s <;> rfl
  rw [Does,same]
  exact first

theorem Does.of_branch {c : Prop} [Decidable c] {x y : Build α} (yes : c → Does step x s)
    (no : ¬c → Does step y s) : Does step (if c then x else y) s := by
  split
  next holds => exact yes holds
  next fails => exact no fails

end Programs

/-! Checks leave a session as it is. -/

section Checks
variable {s : Session}

theorem leaves_requireOpen (call : String) : leaves (requireOpen call) s = s := by
  change leaves (if s.completed then throw _ else pure ()) s = s
  split <;> rfl

theorem leaves_pipeIndex (id : PipeId) : leaves (pipeIndex id) s = s := by
  change leaves (if _ then _ else _) s = s
  split <;> rfl

theorem leaves_stageIndex (id : ChainId) : leaves (stageIndex id) s = s := by
  change leaves (if _ then _ else _) s = s
  split <;> rfl

theorem leaves_operationIndex (id : OperationId) : leaves (operationIndex id) s = s := by
  change leaves (if _ then _ else _) s = s
  split <;> rfl

theorem leaves_requireTail (i : Nat) : leaves (requireTail i) s = s := by
  change leaves (if (s.stage i).next.isSome then throw _ else pure ()) s = s
  split <;> rfl

theorem leaves_pipeIndices (ids : List PipeId) : leaves (ids.mapM pipeIndex) s = s := by
  induction ids with
  | nil => rfl
  | cons id rest ih =>
    rw [List.mapM_cons]
    exact leaves_check (leaves_pipeIndex id) fun _ _ => leaves_check ih fun _ _ => rfl

theorem Does.of_change {β : Type} {step : Session → Session → Prop} {g : Session → Session}
    {f : Unit → Build β} (change : step s (g s)) (next : Does step (f ()) (g s)) :
    Does step (modify g >>= f) s := by
  refine .of_bind (.of_modify (.single change)) fun _ t called => ?_
  obtain rfl := modify_ok.mp called
  exact next

end Checks

/-! Asking for several outputs is asking for one after the other, whatever kind of steps that takes. -/

section Outputs
variable {step : Session → Session → Prop} (asks : ∀ i n s, Does step (outputAt i n) s)
include asks

theorem Does.of_outputIndex (i n : Nat) (s : Session) : Does step (outputIndex i n) s := by
  refine .of_bind (asks i n s) fun answer t _ => ?_
  split
  next => exact .of_pure _
  next =>
    refine .of_get ?_
    split <;> exact .of_throw _

theorem Does.of_output (chain : ChainId) (n : Nat) (s : Session) : Does step (output chain n) s :=
  .of_check (leaves_stageIndex chain) fun _ _ =>
    .of_bind (.of_outputIndex asks ..) fun _ _ _ => .of_same rfl

theorem Does.of_outputsFrom (chain : ChainId) (n count : Nat) (done : Array PipeId) (s : Session) :
    Does step (outputsFrom chain n count done) s := by
  induction count generalizing s n done with
  | zero => exact .of_pure _
  | succ count ih => exact .of_bind (.of_output asks ..) fun _ _ _ => ih ..

theorem Does.of_takeOutputs (chain : ChainId) (count : Nat) (s : Session) :
    Does step (takeOutputs chain count) s :=
  .of_bind (.of_outputsFrom asks ..) fun _ _ _ => .of_pure _

theorem Does.of_pull (i n pulls : Nat) (done : Array PipeId) (s : Session) :
    Does step (pull i n pulls done) s := by
  induction pulls generalizing s n done with
  | zero => exact .of_pure _
  | succ pulls ih =>
    have guarded : Does step
        (tryCatch (Except.ok <$> outputAt i n) fun e => return .error e : Build _) s :=
      .of_caught (.of_map (asks i n s)) fun _ _ _ => .of_pure _
    refine .of_bind guarded fun answer t _ => ?_
    split
    next => exact .of_bind (.of_same rfl) fun _ _ _ => ih ..
    next => exact .of_pure _
    next => exact .of_pure _

theorem Does.of_iterate (chain : ChainId) (limit : Option Nat) (s : Session) :
    Does step (iterate chain limit) s :=
  .of_check (leaves_stageIndex chain) fun _ _ => .of_get (.of_pull asks ..)

end Outputs
end MediaGraph.Session
