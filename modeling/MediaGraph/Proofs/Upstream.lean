import MediaGraph.Proofs.Onward
import MediaGraph.Proofs.Plans
import MediaGraph.Proofs.Runs

/-! Readers stand behind what feeds their pipes.
As long as every pipe is fed before it is given away, a reader that is put on a pipe is on a
later stage than the one that feeds it. This is about the pipes that readers were put on; the
outputs of splits that they are moved to are made afterwards. -/
namespace MediaGraph
open Relation

open Session in
theorem Call.Forward.grows {reply : Reply} {c : Call reply} {answer : reply.Value} {s t : Session}
    (forward : c.Forward) (called : perform c s = .ok answer t) : ReflTransGen Growth s t := by
  cases c with
  | inputStream => exact inputStream_does.ok called
  | setMedia => exact setMedia_does.ok called
  | start => exact start_does.ok called
  | extend => exact extend_does.ok called
  | takeOutputs => exact takeOutputs_does.ok called
  | place => exact place_does.ok called
  | splitChain => exact splitChain_does.ok called
  | discard => exact discard_does.ok called
  | _ => exact forward.elim

namespace Session

theorem fed_before {s t : Session} {i p : Nat} (onward : Onward s t) (before : Feeding s)
    (after : Feeding t) (fed : (s.pipe p).fed = true) (member : p ∈ (t.stage i).outputs) :
    p ∈ (s.stage i).outputs := by
  have own : (s.pipe p).shared = false := by
    rw [← onward.supplied.shared p (inside_of_fed fed)]
    exact after.own i p member
  obtain ⟨j,listed⟩ := before.feeder p fed own
  have same : j = i := after.unique j i p (onward.lasts.mem listed) member
  exact same ▸ listed

/-! The readers that exports make. -/

section Exports
variable {s t : Session}

theorem exportPipe_readers {name : String} {id : PipeId} {u : Unit} (isOpen : s.completed = false)
    (called : exportPipe name id s = .ok u t) :
    ∀ r q, (r,q) ∈ exportReaders name id.index s → s.readers.size ≤ r ∧
      (q = id.index ∨ r < t.readers.size ∧ (t.reader r).owner = .exported) := by
  simp only [exportPipe,bind_ok,pipeIndex_ok,get_ok,modify_ok,and_assoc,exists_and_left,
    exists_eq_left,exists_const] at called
  obtain ⟨_,_,target,v,aimed,resolved⟩ := called
  have aim := (exportTarget_does isOpen).ok aimed
  have opened : v.completed = false := (completed_eq aim).trans isOpen
  let w := v.addReader target .exported
  have added : Growth v w := .tables opened (.of_addReader target)
  have first := onward_of_growth aim
  have rest := onward_of_growth ((resolve_does (added.completed.trans opened)).ok resolved)
  have new : v.readers.size < w.readers.size := by simp [w,addReader_eq]
  intro r q listed
  rw [exportReaders,aimed,List.mem_append,List.mem_singleton] at listed
  rcases listed with passed | last
  · split at passed
    · simp at passed
    · cases List.mem_singleton.mp passed
      exact ⟨Nat.le_refl _,.inl rfl⟩
  · cases last
    refine ⟨first.readers,.inr ⟨Nat.lt_of_lt_of_le new rest.readers,?_⟩⟩
    rw [rest.owner _ new,reader_addReader,if_pos rfl]

theorem exportAll_readers {exports : List (String × PipeId)} {u : Unit}
    (isOpen : s.completed = false) (called : exportAll exports s = .ok u t) :
    ∀ r q, (r,q) ∈ exportsReaders exports s → s.readers.size ≤ r ∧
      ((∃ entry ∈ exports, q = entry.2.index) ∨ (t.reader r).owner = .exported) := by
  induction exports generalizing s with
  | nil => simp [exportsReaders]
  | cons entry rest ih =>
    obtain ⟨name,id⟩ := entry
    obtain ⟨_,v,exported,called⟩ := bind_ok.mp called
    have grown := (exportPipe_does isOpen).ok exported
    have opened := (completed_eq grown).trans isOpen
    have later := onward_of_growth ((exportAll_does opened).ok called)
    intro r q listed
    rw [exportsReaders,exported] at listed
    rcases List.mem_append.mp listed with first | others
    · obtain ⟨low,same | ⟨inside,owner⟩⟩ := exportPipe_readers isOpen exported r q first
      · exact ⟨low,.inl ⟨_,List.mem_cons_self ..,same⟩⟩
      · exact ⟨low,.inr ((later.owner r inside).trans owner)⟩
    · obtain ⟨low,which⟩ := ih opened called r q others
      refine ⟨Nat.le_trans (onward_of_growth grown).readers low,which.imp_left ?_⟩
      rintro ⟨entry,member,same⟩
      exact ⟨entry,List.mem_cons_of_mem _ member,same⟩

end Exports
end Session

namespace Account
open Session
variable {catalog : Catalog} {a : Account} {t : Session}

/-- What is put on an output of a stage is on a later stage. -/
def Upstream (a : Account) : Prop :=
  ∀ r p, (r,p) ∈ a.put → ∀ f, p ∈ (a.session.stage f).outputs →
    ∀ i, (a.session.reader r).owner = .stage i → f < i

theorem Upstream.after {reply : Reply} {c : Call reply} {answer : reply.Value}
    (upstream : a.Upstream) (before : a.Consistent) (after : (a.after c answer t).Consistent)
    (fed : a.session.AllFed) (onward : Onward a.session t)
    (fresh : ∀ r p, (r,p) ∈ c.put a.session t answer → a.session.readers.size ≤ r ∧
      (p < a.session.pipes.size ∨ (t.reader r).owner = .exported)) :
    (a.after c answer t).Upstream := by
  intro r p placed f member i mine
  have back (inside : p < a.session.pipes.size) : p ∈ (a.session.stage f).outputs :=
    fed_before onward before.kept.1.feeding after.kept.1.feeding (fed p inside) member
  rcases List.mem_append.mp placed with old | new
  · obtain ⟨bound,inside,_⟩ := before.kept.2.placed r p old
    exact upstream r p old f (back inside) i ((onward.owner r bound).symm.trans mine)
  · obtain ⟨low,inside | leaves⟩ := fresh r p new
    · have bound : r < t.readers.size := (after.kept.2.placed r p placed).1
      exact Nat.lt_of_lt_of_le (inside_of_output (back inside)) (onward.later r i low bound mine)
    · exact Owner.noConfusion (leaves.symm.trans mine)

/-- What holds of accounts while only forward calls are made. -/
structure Forwarded (catalog : Catalog) (a : Account) : Prop where
  reached : Reached catalog a
  catalog : a.session.catalog = catalog
  fed : a.session.AllFed
  rising : a.session.Rising
  upstream : a.Upstream

theorem Forwarded.new (serial : Nat) (catalog : Catalog) : Forwarded catalog (.new serial catalog) where
  reached := .new serial
  catalog := rfl
  fed _ inside := absurd inside (Nat.not_lt_zero _)
  rising _ _ follows := nomatch follows
  upstream _ _ placed := nomatch placed

theorem Forward.fresh {reply : Reply} {c : Call reply} {answer : reply.Value}
    (forward : c.Forward) (consistent : a.Consistent) (known : a.Knows c) :
    ∀ r p, (r,p) ∈ c.put a.session t answer →
      a.session.readers.size ≤ r ∧ p < a.session.pipes.size := by
  have inside (id : PipeId) (member : id ∈ c.pipes) : id.index < a.session.pipes.size :=
    ((known.issued consistent).pipe id member).2.1
  have started (inputs : List PipeId) (mine : c.pipes = inputs) (r p : Nat)
      (listed : (r,p) ∈ numbered a.session.readers.size (inputs.map PipeId.index)) :
      a.session.readers.size ≤ r ∧ p < a.session.pipes.size := by
    obtain ⟨k,found,rfl⟩ := mem_numbered.mp listed
    obtain ⟨id,member,rfl⟩ := List.mem_map.mp (List.mem_of_getElem? found)
    exact ⟨Nat.le_add_right ..,inside id (mine ▸ member)⟩
  have single (id : PipeId) (mine : c.pipes = [id]) (r p : Nat)
      (listed : (r,p) ∈ [(a.session.readers.size,id.index)]) :
      a.session.readers.size ≤ r ∧ p < a.session.pipes.size := by
    cases List.mem_singleton.mp listed
    exact ⟨Nat.le_refl _,inside id (by simp [mine])⟩
  cases c with
  | start inputs => exact started inputs rfl
  | place inputs => exact started inputs rfl
  | splitChain id => exact single id rfl
  | discard id => exact single id rfl
  | inputStream => exact fun _ _ listed => nomatch listed
  | setMedia => exact fun _ _ listed => nomatch listed
  | extend => exact fun _ _ listed => nomatch listed
  | takeOutputs => exact fun _ _ listed => nomatch listed
  | _ => exact forward.elim

theorem Forwarded.after {reply : Reply} {c : Call reply} {answer : reply.Value}
    (forwarded : Forwarded catalog a) (forward : c.Forward) (known : a.Knows c)
    (answered : perform c a.session = .ok answer t) :
    Forwarded catalog (a.after c answer t) := by
  have grown := Call.Forward.grows forward answered
  have onward := onward_of_growth grown
  have consistent := forwarded.reached.consistent
  refine ⟨.call c answer t forwarded.reached known answered,onward.catalog.trans forwarded.catalog,
    onward.supplied.allFed forwarded.fed,rising_of_growth grown forwarded.rising,?_⟩
  refine forwarded.upstream.after consistent (consistent.after known answered) forwarded.fed onward
    fun r p listed => ?_
  obtain ⟨low,inside⟩ := Forward.fresh forward consistent known r p listed
  exact ⟨low,.inl inside⟩

theorem Forwarded.complete {exports : List (String × PipeId)} (forwarded : Forwarded catalog a)
    (known : a.Knows (.complete exports)) (completed : Session.complete exports a.session = .ok () t) :
    t.Rising ∧ t.AllFed ∧ (a.after (.complete exports) () t).Upstream := by
  have consistent := forwarded.reached.consistent
  obtain ⟨isOpen,v,exported,_,rfl⟩ := complete_ok.mp completed
  have grown := (exportAll_does isOpen).ok exported
  have closed : Onward v v.close :=
    .of_stages (.of_pipes rfl) rfl rfl (Nat.le_refl _) (.of_stages rfl)
  have onward := (onward_of_growth grown).trans closed
  have rising := rising_of_growth grown forwarded.rising
  refine ⟨rising.of_stages fun _ => .inl rfl,onward.supplied.allFed forwarded.fed,?_⟩
  refine forwarded.upstream.after consistent (consistent.after known completed) forwarded.fed onward
    fun r p listed => ?_
  obtain ⟨low,⟨entry,member,rfl⟩ | leaves⟩ := exportAll_readers isOpen exported r p listed
  · have issued := (known.issued consistent).pipe entry.2 (List.mem_map_of_mem member)
    exact ⟨low,.inl issued.2.1⟩
  · exact ⟨low,.inr leaves⟩

end Account
end MediaGraph
