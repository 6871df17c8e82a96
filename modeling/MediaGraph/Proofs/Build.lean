import MediaGraph.Session.Perform

/-! Calls that succeed.
A call is opened from its last step back: each lemma says when one step of a
call succeeds and what it leaves, so that a call turns into a list of facts. -/
namespace MediaGraph.Session

section Steps
variable {α β : Type} {s s' : Session}

theorem bind_ok {x : Build α} {f : α → Build β} {b : β} :
    (x >>= f) s = .ok b s' ↔ ∃ a t, x s = .ok a t ∧ f a t = .ok b s' := by
  change EStateM.bind x f s = _ ↔ _
  unfold EStateM.bind
  cases x s with
  | ok a t => simp [and_assoc]
  | error e t => simp

theorem run_bind {x : Build α} {f : α → Build β} {a : α} (called : x s = .ok a s') :
    (x >>= f) s = f a s' := by
  change EStateM.bind x f s = _
  simp only [EStateM.bind,called]

theorem run_congr {x y : Build α} {f : α → Build β} (same : x s = y s) : (x >>= f) s = (y >>= f) s := by
  change EStateM.bind x f s = EStateM.bind y f s
  simp only [EStateM.bind,same]

theorem pure_ok {a b : α} : (pure a : Build α) s = .ok b s' ↔ b = a ∧ s' = s := by
  change EStateM.Result.ok a s = _ ↔ _
  simp [eq_comm]

theorem get_ok {t : Session} : (get : Build Session) s = .ok t s' ↔ t = s ∧ s' = s := by
  change EStateM.Result.ok s s = _ ↔ _
  simp [eq_comm]

theorem modify_ok {f : Session → Session} {u : Unit} :
    (modify f : Build Unit) s = .ok u s' ↔ s' = f s := by
  change EStateM.Result.ok () (f s) = _ ↔ _
  simp [eq_comm]

theorem throw_ok {e : GraphError} {a : α} : (throw e : Build α) s = .ok a s' ↔ False := by
  change EStateM.Result.error e s = _ ↔ _
  simp

theorem bind_error {x : Build α} {f : α → Build β} {e : GraphError} :
    (x >>= f) s = .error e s' ↔
      x s = .error e s' ∨ ∃ a t, x s = .ok a t ∧ f a t = .error e s' := by
  change EStateM.bind x f s = _ ↔ _
  unfold EStateM.bind
  cases x s with
  | ok a t => simp [and_assoc]
  | error e t => simp

theorem throw_error {e e' : GraphError} :
    (throw e : Build α) s = .error e' s' ↔ e' = e ∧ s' = s := by
  change EStateM.Result.error e s = _ ↔ _
  simp [eq_comm]

theorem pure_error {a : α} {e : GraphError} : (pure a : Build α) s = .error e s' ↔ False := by
  change EStateM.Result.ok a s = _ ↔ _
  simp

theorem get_error {e : GraphError} : (get : Build Session) s = .error e s' ↔ False := by
  change EStateM.Result.ok s s = _ ↔ _
  simp

theorem modify_error {f : Session → Session} {e : GraphError} :
    (modify f : Build Unit) s = .error e s' ↔ False := by
  change EStateM.Result.ok () (f s) = _ ↔ _
  simp

theorem choice_error {c : Prop} [Decidable c] {x y : Build α} {e : GraphError} :
    (if c then x else y) s = .error e s' ↔
      (c ∧ x s = .error e s') ∨ (¬c ∧ y s = .error e s') := by
  split <;> simp [*]

theorem choice_ok {c : Prop} [Decidable c] {x y : Build α} {a : α} :
    (if c then x else y) s = .ok a s' ↔ (c ∧ x s = .ok a s') ∨ (¬c ∧ y s = .ok a s') := by
  split <;> simp [*]

theorem ofExcept_ok {x : Except GraphError α} {a : α} :
    (MonadExcept.ofExcept x : Build α) s = .ok a s' ↔ x = .ok a ∧ s' = s := by
  cases x with
  | error e => simpa [MonadExcept.ofExcept] using throw_ok
  | ok v => simp [MonadExcept.ofExcept,pure_ok,eq_comm]

/-- A guarded step answers a failure as a value and goes on. -/
theorem caught_ok {x : Build α} {answer : Except GraphError α} :
    (tryCatch (Except.ok <$> x) fun e => return .error e : Build _) s = .ok answer s' ↔
      (∃ a, x s = .ok a s' ∧ answer = .ok a) ∨ ∃ e, x s = .error e s' ∧ answer = .error e := by
  change EStateM.tryCatch (EStateM.map Except.ok x) _ s = _ ↔ _
  delta EStateM.tryCatch EStateM.map
  cases x s with
  | ok a t => simp [eq_comm,and_assoc,and_comm]
  | error e t =>
    change EStateM.Result.ok (Except.error e) t = _ ↔ _
    simp [eq_comm,and_assoc,and_comm]

end Steps

/-! Outcomes that are worked out. -/

def succeeds {α : Type} (x : Build α) (s : Session) (p : α → Session → Bool) : Bool :=
  match x s with
  | .ok a t => p a t
  | .error _ _ => false

def fails {α : Type} (x : Build α) (s : Session) (p : GraphError → Session → Bool) : Bool :=
  match x s with
  | .ok _ _ => false
  | .error e t => p e t

theorem ok_of_succeeds {α : Type} {x : Build α} {s : Session} {p : α → Session → Bool}
    (holds : succeeds x s p = true) : ∃ a t, x s = .ok a t ∧ p a t = true := by
  unfold succeeds at holds
  cases called : x s with
  | ok a t => exact ⟨a,t,rfl,by simpa [called] using holds⟩
  | error e t => simp [called] at holds

theorem error_of_fails {α : Type} {x : Build α} {s : Session} {p : GraphError → Session → Bool}
    (holds : fails x s p = true) : ∃ e t, x s = .error e t ∧ p e t = true := by
  unfold fails at holds
  cases called : x s with
  | ok a t => simp [called] at holds
  | error e t => exact ⟨e,t,rfl,by simpa [called] using holds⟩

end MediaGraph.Session
