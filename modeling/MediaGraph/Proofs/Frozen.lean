import MediaGraph.Proofs.Changes
import MediaGraph.Proofs.Plans
import MediaGraph.Proofs.Runs

/-! A completed session is frozen.
Every change but that of media and hints is made on an open session only. So whatever is
run on a session that was completed leaves the rest of it, and what it shows, as it was. -/
namespace MediaGraph.Session
open Relation

section Frozen
variable {s t u : Session}

theorem Frozen.refl (s : Session) : Frozen s s := ⟨rfl,rfl,fun _ => rfl⟩

theorem Frozen.trans (first : Frozen s t) (second : Frozen t u) : Frozen s u where
  rest := by
    rw [second.rest,first.rest]
  size := second.size.trans first.size
  pipe p := by
    rw [second.pipe p,first.pipe p]

theorem Frozen.stages (frozen : Frozen s t) : t.stages = s.stages := by rw [frozen.rest]

theorem Frozen.completed (frozen : Frozen s t) : t.completed = s.completed := by rw [frozen.rest]

theorem Frozen.name (frozen : Frozen s t) (p : Nat) : (t.pipe p).name = (s.pipe p).name := by
  rw [frozen.pipe p]

theorem headWithin_congr (same : ∀ i, t.stage i = s.stage i) (fuel i : Nat) :
    t.headWithin fuel i = s.headWithin fuel i := by
  induction fuel generalizing i with
  | zero => rfl
  | succ fuel ih => simp only [headWithin,same,ih]

theorem sequenceWithin_congr (same : ∀ i, t.stage i = s.stage i) (fuel i : Nat) :
    t.sequenceWithin fuel i = s.sequenceWithin fuel i := by
  induction fuel generalizing i with
  | zero => rfl
  | succ fuel ih => simp only [sequenceWithin,same,ih]

theorem render_congr (stages : t.stages = s.stages) (roots : t.roots = s.roots)
    (readers : t.readers = s.readers) (operations : t.operations = s.operations)
    (names : ∀ p, (t.pipe p).name = (s.pipe p).name) : t.render = s.render := by
  have stage (i : Nat) : t.stage i = s.stage i := by rw [Session.stage,stages]; rfl
  have reader (r : Nat) : t.reader r = s.reader r := by rw [Session.reader,readers]; rfl
  have operation (o : Nat) : t.operation o = s.operation o := by
    rw [Session.operation,operations]
    rfl
  have head : t.head = s.head := by
    funext i
    rw [Session.head,Session.head,stages,headWithin_congr stage]
  have sequence : t.sequence = s.sequence := by
    funext i
    rw [Session.sequence,Session.sequence,stages,sequenceWithin_congr stage]
  have segment : t.segment? = s.segment? := by
    funext i
    have operations : t.operation = s.operation := funext operation
    simp only [segment?,operationAt,inputPipes,stage,reader,operations,names]
  have segments : t.segments = s.segments := by
    funext first
    rw [Session.segments,Session.segments,sequence,segment]
  rw [Session.render,Session.render,chains,chains,heads,heads,roots,head,segments]

theorem Frozen.render (frozen : Frozen s t) : t.render = s.render := by
  apply render_congr frozen.stages
  · rw [frozen.rest]
  · rw [frozen.rest]
  · rw [frozen.rest]
  · exact frozen.name

theorem Growth.frozen (growth : Growth s t) (completed : s.completed = true) : Frozen s t := by
  cases growth with
  | paint frozen => exact frozen
  | _ => simp_all

theorem Change.frozen (change : Change s t) (completed : s.completed = true) : Frozen s t := by
  cases change with
  | growth growth => exact growth.frozen completed
  | _ => simp_all

theorem frozen_of_changes (changes : ReflTransGen Change s t) (completed : s.completed = true) :
    Frozen s t := by
  induction changes with
  | refl => exact .refl s
  | tail _ change ih => exact ih.trans (change.frozen (ih.completed.trans completed))

end Frozen

/-- Once a graph is completed, no program changes anything but media and hints of the pipes
that are there, and the graph is shown by the same text. -/
theorem complete_freezes {exports : List (String × PipeId)} {s t u : Session}
    (called : complete exports s = .ok () t) (runs : Runs t u) :
    Frozen t u ∧ u.render = t.render := by
  obtain ⟨_,v,_,_,rfl⟩ := complete_ok.mp called
  have frozen := frozen_of_changes runs.changes rfl
  exact ⟨frozen,frozen.render⟩

/-- A hint is set after a pipe was asked for in vain. -/
theorem complete_freezes_hinted : ∃ s t u, complete [("a",⟨0,1⟩),("b",⟨0,1⟩)] s = .ok () t ∧
    u = leaves (perform (.setHint ⟨0,1⟩ "scaled")) (leaves (perform .newPipe) t) ∧
    Frozen t u ∧ u.render = t.render := by
  obtain ⟨a,t,_,_,completed⟩ := Account.scaledSource_completes
  have runs := Runs.run (.call (.setHint ⟨0,1⟩ "scaled")) (.run (.call .newPipe) (.refl t))
  exact ⟨a.session,t,_,completed,rfl,complete_freezes completed runs⟩

end MediaGraph.Session
