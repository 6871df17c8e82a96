import MediaGraph.Proofs.Plans

/-! What was said in a run of calls.
An account keeps which handles were given away, but not in answer to what. A trace lists the calls
that led to it, each with the session that it was made on and its answer. -/
namespace MediaGraph

structure Event where
  reply : Reply
  call : Call reply
  before : Session
  answer : reply.Value

namespace Account
open Session

inductive Trace (catalog : Catalog) : List Event → Account → Prop
  | new (serial) : Trace catalog [] (.new serial catalog)
  | call {events a reply} (c : Call reply) (answer t) (trace : Trace catalog events a)
      (known : a.Knows c) (answered : perform c a.session = .ok answer t) :
      Trace catalog (events ++ [⟨reply,c,a.session,answer⟩]) (a.after c answer t)

def history : List ((reply : Reply) × Call reply) → Account → List Event
  | [], _ => []
  | ⟨reply,c⟩ :: rest, a =>
    match perform c a.session with
    | .ok answer t => ⟨reply,c,a.session,answer⟩ :: history rest (a.after c answer t)
    | .error _ _ => []

variable {catalog : Catalog} {events : List Event} {a b : Account}

theorem Trace.reached (trace : Trace catalog events a) : Reached catalog a := by
  induction trace with
  | new serial => exact .new serial
  | call c answer t _ known answered ih => exact .call c answer t ih known answered

theorem Reached.trace (reached : Reached catalog a) : ∃ events, Trace catalog events a := by
  induction reached with
  | new serial => exact ⟨[],.new serial⟩
  | call c answer t _ known answered ih =>
    obtain ⟨events,trace⟩ := ih
    exact ⟨_,trace.call c answer t known answered⟩

theorem Trace.run {calls : List ((reply : Reply) × Call reply)} (trace : Trace catalog events a)
    (ran : run? calls a = some b) : Trace catalog (events ++ history calls a) b := by
  induction calls generalizing events a with
  | nil =>
    rw [history,List.append_nil]
    exact Option.some.inj ran ▸ trace
  | cons call rest ih =>
    obtain ⟨reply,c⟩ := call
    unfold run? at ran
    cases answered : perform c a.session with
    | error e t => simp [answered] at ran
    | ok answer t =>
      by_cases known : a.Knows c
      · simp only [answered,known,if_true] at ran
        simpa [history,answered] using ih (trace.call c answer t known answered) ran
      · simp [answered,known] at ran

end Account
end MediaGraph
