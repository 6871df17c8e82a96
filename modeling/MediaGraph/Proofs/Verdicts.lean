import MediaGraph.Proofs.Frozen
import MediaGraph.Proofs.WellFormed

/-! What the check at the end says of a graph that nothing leaves.
It accepts the graphs whose pipes have both ends and names of their own, and of any other
graph it names a pipe that is at fault. The check sees flags and names only; pads are what
its verdict is about. -/
namespace MediaGraph.Session

section Clashes

theorem nameClash_some {seen pipes : List Pipe} {p q : Pipe}
    (clash : nameClash seen pipes = some (q,p)) :
    q.name = p.name ∧ ∃ before after, pipes = before ++ p :: after ∧ (p.fed || p.taken) = true ∧
      (q ∈ seen ∨ q ∈ before ∧ (q.fed || q.taken) = true) := by
  induction pipes generalizing seen with
  | nil => simp [nameClash] at clash
  | cons first rest ih =>
    unfold nameClash at clash
    by_cases used : (first.fed || first.taken) = true
    · rw [if_pos used] at clash
      cases found : seen.find? fun other => other.name == first.name with
      | some other =>
        simp only [found,Option.some.injEq,Prod.mk.injEq] at clash
        obtain ⟨rfl,rfl⟩ := clash
        have same := List.find?_some found
        exact ⟨beq_iff_eq.mp same,[],rest,rfl,used,.inl (List.mem_of_find?_eq_some found)⟩
      | none =>
        rw [found] at clash
        obtain ⟨same,before,after,rfl,usedP,earlier⟩ := ih clash
        refine ⟨same,first :: before,after,rfl,usedP,?_⟩
        rcases earlier with listed | ⟨listed,usedQ⟩
        · rcases List.mem_cons.mp listed with rfl | old
          · exact .inr ⟨by simp,used⟩
          · exact .inl old
        · exact .inr ⟨by simp [listed],usedQ⟩
    · rw [if_neg used] at clash
      obtain ⟨same,before,after,rfl,usedP,earlier⟩ := ih clash
      refine ⟨same,first :: before,after,rfl,usedP,?_⟩
      exact earlier.imp_right fun ⟨listed,usedQ⟩ => ⟨List.mem_cons_of_mem _ listed,usedQ⟩

end Clashes

def Present (s : Session) (p : Nat) : Prop :=
  p ∈ s.outputPads ∨ p ∈ s.inputPads ∨ ∃ spec, s.streams.lookup spec = some p

/-- Every pipe of the graph itself has both ends or none, and what is present has a name of
its own. -/
structure Closes (s : Session) : Prop where
  ends : ∀ p, (s.pipe p).shared = false → (p ∈ s.outputPads ↔ p ∈ s.inputPads)
  names : ∀ p q, s.Present p → s.Present q → (s.pipe p).name = (s.pipe q).name → p = q

/-- An error that names a pipe which is at fault, in the way that the error says. -/
inductive Blames (s : Session) : GraphError → Prop
  | unread (p) (feeds : p ∈ s.outputPads) (unread : p ∉ s.inputPads) :
      Blames s (.binding (.neverRead (s.pipe p).describe))
  | unfed (p) (own : (s.pipe p).shared = false) (reads : p ∈ s.inputPads)
      (unfed : p ∉ s.outputPads) : Blames s (.binding (.neverFed (s.pipe p).describe))
  | sameName (p q) (differ : p ≠ q) (first : s.Present p) (second : s.Present q)
      (same : (s.pipe p).name = (s.pipe q).name) :
      Blames s (.naming (.sameName (s.pipe q).name (s.pipe p).describe (s.pipe q).describe))

section Flags
variable {s : Session} {p : Nat} {e : GraphError}

theorem fed_iff (sound : Sound s []) (own : (s.pipe p).shared = false) :
    (s.pipe p).fed = true ↔ p ∈ s.outputPads := by
  rw [mem_outputPads sound]
  constructor
  · exact fun fed => sound.feeding.feeder p fed own
  · rintro ⟨i,member⟩
    exact sound.feeding.fed i p member

theorem taken_iff (sound : Sound s []) (inward : s.exportPads = [])
    (own : (s.pipe p).shared = false) : (s.pipe p).taken = true ↔ p ∈ s.inputPads := by
  constructor
  · intro taken
    have once := readers_count sound own taken
    rw [inward,List.count_nil] at once
    exact List.count_pos_iff.mp (by omega)
  · intro member
    exact taken_of_mem sound own (List.mem_append_left _ member)

theorem present_iff (sound : Sound s []) (inward : s.exportPads = []) :
    s.Present p ↔ ((s.pipe p).fed || (s.pipe p).taken) = true := by
  rw [Bool.or_eq_true]
  cases kind : (s.pipe p).shared with
  | false =>
    have unknown : ¬ ∃ spec, s.streams.lookup spec = some p := by
      rintro ⟨spec,found⟩
      simp [(sound.naming.known spec p found).1] at kind
    rw [fed_iff sound kind,taken_iff sound inward kind,Present]
    simp [unknown]
  | true =>
    have fed := sound.feeding.outside p kind
    have asked := (sound.naming.stream p kind).2
    exact ⟨fun _ => .inl fed,fun _ => .inr (.inr ⟨_,asked⟩)⟩

theorem Checked.closes (checked : s.Checked) (sound : Sound s []) (inward : s.exportPads = []) :
    s.Closes where
  ends p own := by
    rw [← fed_iff sound own,← taken_iff sound inward own,checked.ends p own]
  names p q first second :=
    checked.names p q ((present_iff sound inward).mp first) ((present_iff sound inward).mp second)

theorem Blames.not_closes (blames : s.Blames e) (sound : Sound s []) : ¬ s.Closes := by
  intro closes
  cases blames with
  | unread p feeds unread =>
    obtain ⟨i,member⟩ := (mem_outputPads sound).mp feeds
    exact unread ((closes.ends p (sound.feeding.own i p member)).mp feeds)
  | unfed p own reads unfed => exact unfed ((closes.ends p own).mpr reads)
  | sameName p q differ first second same => exact differ (closes.names p q first second same)

theorem pipe_of_listed {pipe : Pipe} {k : Nat} (found : s.pipes.toList[k]? = some pipe) :
    pipe = s.pipe k := by
  rw [Array.getElem?_toList] at found
  simp [Session.pipe,found]

theorem clash_pipes {first second : Pipe} (clash : nameClash [] s.pipes.toList = some (first,second)) :
    ∃ p q, p < q ∧ q < s.pipes.size ∧ first = s.pipe p ∧ second = s.pipe q ∧
      ((s.pipe p).fed || (s.pipe p).taken) = true ∧ ((s.pipe q).fed || (s.pipe q).taken) = true ∧
      (s.pipe p).name = (s.pipe q).name := by
  obtain ⟨same,before,after,split,usedSecond,none | ⟨member,usedFirst⟩⟩ := nameClash_some clash
  · simp at none
  -- The one that was seen stands in front of the other, so they are two pipes.
  obtain ⟨p,bound,there⟩ := List.mem_iff_getElem.mp member
  have early : s.pipes.toList[p]? = some first := by
    rw [split,List.getElem?_append_left bound,List.getElem?_eq_getElem bound,there]
  have late : s.pipes.toList[before.length]? = some second := by
    rw [split,List.getElem?_append_right (Nat.le_refl _),Nat.sub_self]
    rfl
  have inside : before.length < s.pipes.size := by
    simpa using (List.getElem?_eq_some_iff.mp late).1
  rw [pipe_of_listed early] at same usedFirst
  rw [pipe_of_listed late] at same usedSecond
  exact ⟨p,before.length,bound,inside,pipe_of_listed early,pipe_of_listed late,usedFirst,usedSecond,same⟩

theorem validate_error (sound : Sound s []) (inward : s.exportPads = [])
    (refused : s.validate = .error e) : s.Blames e := by
  unfold validate at refused
  cases clash : nameClash [] s.pipes.toList with
  | some pair =>
    obtain ⟨first,second⟩ := pair
    simp only [clash,Except.error.injEq] at refused
    obtain ⟨p,q,before,_,rfl,rfl,usedFirst,usedSecond,same⟩ := clash_pipes clash
    rw [← refused]
    exact .sameName p q (Nat.ne_of_lt before) ((present_iff sound inward).mpr usedFirst)
      ((present_iff sound inward).mpr usedSecond) same
  | none =>
    cases loose : dangling s.pipes.toList with
    | none => simp [clash,loose] at refused
    | some pipe =>
      simp only [clash,loose,Except.error.injEq] at refused
      obtain ⟨k,there⟩ := List.mem_iff_getElem?.mp (List.mem_of_find?_eq_some loose)
      have odd := List.find?_some loose
      rw [pipe_of_listed there] at odd refused
      simp only [Bool.and_eq_true,Bool.not_eq_true',bne_iff_ne,ne_eq] at odd
      obtain ⟨own,differ⟩ := odd
      have feeds := fed_iff sound own
      have reads := taken_iff sound inward own
      rw [← refused]
      cases fed : (s.pipe k).fed with
      | true =>
        rw [fed] at feeds differ
        apply Blames.unread k (feeds.mp rfl)
        intro member
        exact differ (reads.mpr member).symm
      | false =>
        rw [fed] at feeds differ
        apply Blames.unfed k own
        · exact reads.mp (by simpa using differ)
        · intro member
          simpa using feeds.mpr member

end Flags

theorem exportPads_of_open {a : Account} (consistent : a.Consistent)
    (isOpen : a.session.completed = false) : a.session.exportPads = [] := by
  have inward (r : Nat) : r ∉ a.session.leavers := by
    intro leaves
    obtain ⟨bound,owner⟩ := List.mem_filter.mp leaves
    obtain ⟨name,listed⟩ := ((consistent.enclosed isOpen).exported r (List.mem_range.mp bound)).mp
      (by simpa using owner)
    simp at listed
  rw [exportPads,List.eq_nil_iff_forall_not_mem.mpr inward]
  rfl

open Account in
/-- Completing a graph without exports succeeds where the graph closes, and does not change what
it shows; anywhere else the error names what is at fault and nothing is changed. -/
theorem complete_verdict {catalog : Catalog} {a : Account} (reached : Reached catalog a)
    (isOpen : a.session.completed = false) :
    (a.session.Closes → ∃ t, complete [] a.session = .ok () t ∧ t.render = a.session.render) ∧
      (¬ a.session.Closes →
        ∃ e, complete [] a.session = .error e a.session ∧ a.session.Blames e) ∧
      ∀ pipe : Pipe, ∃ note, pipe.describe = "[" ++ pipe.name ++ "]" ++ note := by
  suffices verdict : (a.session.Closes →
        ∃ t, complete [] a.session = .ok () t ∧ t.render = a.session.render) ∧
      (¬ a.session.Closes → ∃ e, complete [] a.session = .error e a.session ∧ a.session.Blames e) from
    ⟨verdict.1,verdict.2,Pipe.describe_label⟩
  have sound := reached.consistent.kept.1
  have inward := exportPads_of_open reached.consistent isOpen
  have exported : exportAll [] a.session = .ok () a.session := rfl
  cases checked : a.session.validate with
  | ok =>
    have closes := (validate_ok checked).closes sound inward
    refine ⟨fun _ => ⟨a.session.close,?_,render_congr rfl rfl rfl rfl fun _ => rfl⟩,fun not => absurd closes not⟩
    exact complete_ok.mpr ⟨isOpen,a.session,exported,checked,rfl⟩
  | error e =>
    have blames := validate_error sound inward checked
    refine ⟨fun closes => absurd closes (blames.not_closes sound),fun _ => ⟨e,?_,blames⟩⟩
    apply bind_error.mpr ∘ .inr
    refine ⟨(),a.session,requireOpen_ok.mpr ⟨isOpen,rfl⟩,bind_error.mpr (.inr ⟨(),_,exported,?_⟩)⟩
    refine bind_error.mpr (.inr ⟨_,_,get_ok.mpr ⟨rfl,rfl⟩,?_⟩)
    rw [checked]
    exact throw_error.mpr ⟨rfl,rfl⟩

open Account in
/-- The scaled video is left over, until two sinks take it. -/
theorem complete_verdict_drained : ∃ a b t, run? scaledSource (.new 0 .empty) = some a ∧
    a.session.completed = false ∧ ¬ a.session.Closes ∧
    (∃ e, complete [] a.session = .error e a.session ∧ a.session.Blames e) ∧
    run? (scaledSource ++ [⟨_,.discard ⟨0,1⟩⟩,⟨_,.discard ⟨0,1⟩⟩]) (.new 0 .empty) = some b ∧
    b.session.completed = false ∧ b.session.Closes ∧ complete [] b.session = .ok () t ∧
    t.render = b.session.render := by
  have runs : (run? scaledSource (.new 0 .empty)).any (fun a => !a.session.completed &&
      fails (complete []) a.session fun _ _ => true) = true := by decide +kernel
  have drains : (run? (scaledSource ++ [⟨_,.discard ⟨0,1⟩⟩,⟨_,.discard ⟨0,1⟩⟩])
      (.new 0 .empty)).any (fun b => !b.session.completed &&
        succeeds (complete []) b.session fun _ _ => true) = true := by decide +kernel
  obtain ⟨a,ranA,factsA⟩ := (Option.any_eq_true ..).mp runs
  obtain ⟨b,ranB,factsB⟩ := (Option.any_eq_true ..).mp drains
  simp only [Bool.and_eq_true,Bool.not_eq_true'] at factsA factsB
  obtain ⟨e,u,refused,_⟩ := error_of_fails factsA.2
  obtain ⟨_,v,completed,_⟩ := ok_of_succeeds factsB.2
  have verdictA := complete_verdict ((Reached.new 0).run ranA) factsA.1
  have verdictB := complete_verdict ((Reached.new 0).run ranB) factsB.1
  have openA : ¬ a.session.Closes := by
    intro closes
    obtain ⟨t,done,_⟩ := verdictA.1 closes
    simp [refused] at done
  have closesB : b.session.Closes := by
    apply Classical.byContradiction
    intro loose
    obtain ⟨e,failed,_⟩ := verdictB.2.1 loose
    simp [completed] at failed
  obtain ⟨t,done,same⟩ := verdictB.1 closesB
  exact ⟨a,b,t,ranA,factsA.1,openA,verdictA.2.1 openA,ranB,factsB.1,closesB,done,same⟩

end MediaGraph.Session
