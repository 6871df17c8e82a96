import MediaGraph.Proofs.Changes
import MediaGraph.Proofs.Pads

/-! Chains in every session that programs come to.
Stages lie in chains after every change, and only a stage that holds an operation and has no
outputs gets a stage behind it. So chains share out the stages, and the text shows each stage
that holds an operation once and in its place. -/
namespace MediaGraph.Session
open Relation

def Leads (s : Session) (i j : Nat) : Prop := (s.stage i).next = some j

def shown (s : Session) : List (List Nat) :=
  (s.roots.toList.map fun root =>
    (s.sequence root).filter fun i => (s.stage i).operation.isSome).filter fun chain => !chain.isEmpty

def stageText (s : Session) (i : Nat) : String := ((s.segment? i).map Segment.text).getD ""

/-- Each stage with an operation is shown once, and behind the stages that it stands behind. -/
structure Displayed (s : Session) : Prop where
  text : s.render = ";".intercalate (s.shown.map fun chain => ",".intercalate (chain.map s.stageText))
  once : s.shown.flatten.Nodup
  holds : ∀ i, i ∈ s.shown.flatten ↔ (s.stage i).operation ≠ none
  ordered : ∀ i j, TransGen s.Leads i j → (s.stage i).operation ≠ none →
    (s.stage j).operation ≠ none → [i,j].Sublist s.shown.flatten

structure Chained (s : Session) : Prop where
  inverse : ∀ i j, (s.stage i).next = some j ↔ (s.stage j).prev = some i
  acyclic : ∀ i, ¬ TransGen s.Leads i i
  /-- The first stage is found from every stage, and more steps find no other. -/
  head : ∀ i, i < s.stages.size → (s.stage (s.head i)).prev = none ∧
    ReflTransGen s.Leads (s.head i) i ∧
    ∀ fuel, s.stages.size ≤ fuel → s.headWithin fuel i = s.head i
  sequence : ∀ i, i < s.stages.size → ∃ rest, s.sequence i = i :: rest ∧
    Linked s (s.stage i).prev (i :: rest) none ∧
    ∀ fuel, s.stages.size ≤ fuel → s.sequenceWithin fuel i = i :: rest
  placeholder : ∀ i, (s.stage i).operation = none → (s.stage i).next = none ∧ (s.stage i).outputs = #[]
  outputs : ∀ i, (s.stage i).outputs ≠ #[] → (s.stage i).next = none
  rootsOnce : s.roots.toList.Nodup
  roots : ∀ i, i ∈ s.roots ↔ i < s.stages.size ∧ (s.stage i).prev = none
  partition : (s.roots.toList.flatMap s.sequence).Perm (List.range s.stages.size)
  displayed : Displayed s

namespace Layout
variable {s t : Session} {chains : List (List Nat)}

theorem of_stages (layout : Layout s chains) (stages : t.stages = s.stages)
    (roots : t.roots = s.roots) : Layout t chains := by
  refine layout.congr (fun i => ?_) (by rw [stages]) roots
  rw [stage,stages]
  exact ⟨rfl,rfl⟩

theorem of_modifyStage (layout : Layout s chains) (i : Nat) {f : Stage → Stage}
    (placed : ∀ stage, (f stage).prev = stage.prev ∧ (f stage).next = stage.next) :
    Layout (s.modifyStage i f) chains := by
  refine layout.congr (fun j => ?_) Array.size_modify rfl
  rw [stage,modifyStage,getD_modify]
  split
  · exact placed _
  · exact ⟨rfl,rfl⟩

theorem of_growth (layout : Layout s chains) (growth : Growth s t) : ∃ chains, Layout t chains := by
  cases growth with
  | paint frozen =>
    exact ⟨_,layout.of_stages (by rw [frozen.rest]) (by rw [frozen.rest])⟩
  | tables _ kept => exact ⟨_,layout.of_stages kept.stages kept.roots⟩
  | place pipes => exact ⟨_,layout.of_addChain pipes⟩
  | hold i op =>
    have held := layout.of_modifyStage i (f := fun stage =>
      { stage with operation := some s.operations.size }) fun _ => ⟨rfl,rfl⟩
    exact ⟨_,held.of_stages rfl rfl⟩
  | append i op _ holds tail =>
    obtain ⟨front,member⟩ := layout.ends_with (inside_of_holds holds) tail
    exact ⟨_,layout.of_append op member⟩
  | connect i pipes => exact ⟨_,layout.of_modifyStage i fun _ => ⟨rfl,rfl⟩⟩
  | output i op =>
    have more := layout.of_modifyStage i (f := fun stage =>
      { stage with outputs := stage.outputs.push s.pipes.size }) fun _ => ⟨rfl,rfl⟩
    exact ⟨_,more.of_stages rfl rfl⟩
  | attach p name => exact ⟨_,layout.of_attach p name⟩

theorem of_change (layout : Layout s chains) (change : Change s t) : ∃ chains, Layout t chains := by
  cases change with
  | growth growth => exact layout.of_growth growth
  | pipe _ stages roots => exact ⟨_,layout.of_stages stages roots⟩
  | splice a b _ insideA insideB _ tail _ apart => exact layout.of_link insideA insideB tail apart
  | close => exact ⟨_,layout.of_stages rfl rfl⟩

end Layout

/-- Only a stage that holds an operation is gone on from, and not if it has outputs. -/
structure Ended (s : Session) : Prop where
  placeholder : ∀ i, (s.stage i).operation = none → (s.stage i).next = none ∧ (s.stage i).outputs = #[]
  outputs : ∀ i, (s.stage i).outputs ≠ #[] → (s.stage i).next = none

def SameEnd (s t : Session) (i : Nat) : Prop :=
  (t.stage i).operation = (s.stage i).operation ∧ (t.stage i).outputs = (s.stage i).outputs ∧
    (t.stage i).next = (s.stage i).next

namespace Ended
variable {s t : Session}

theorem of_new (serial : Nat) (catalog : Catalog) : Ended (new serial catalog) where
  placeholder _ _ := ⟨rfl,rfl⟩
  outputs _ _ := rfl

theorem step (ended : Ended s) (each : ∀ i, SameEnd s t i ∨
    ((t.stage i).next = none ∧ ((t.stage i).operation = none → (t.stage i).outputs = #[])) ∨
    ((t.stage i).operation ≠ none ∧ (t.stage i).outputs = #[])) : Ended t where
  placeholder i vacant := by
    rcases each i with ⟨operation,outputs,next⟩ | ⟨tail,bare⟩ | ⟨holds,_⟩
    · rw [next,outputs]
      exact ended.placeholder i (operation ▸ vacant)
    · exact ⟨tail,bare vacant⟩
    · exact absurd vacant holds
  outputs i some := by
    rcases each i with ⟨_,outputs,next⟩ | ⟨tail,_⟩ | ⟨_,bare⟩
    · rw [next]
      exact ended.outputs i (outputs ▸ some)
    · exact tail
    · exact absurd bare some

theorem of_stages (ended : Ended s) (stages : t.stages = s.stages) : Ended t := by
  refine ended.step fun i => .inl ?_
  have same : t.stage i = s.stage i := by rw [stage,stages]; rfl
  rw [SameEnd,same]
  exact ⟨rfl,rfl,rfl⟩

theorem of_last (ended : Ended s) (i : Nat) {stage : Nat → Stage}
    (stages : ∀ j, t.stage j = if j = i then stage j else s.stage j)
    (last : (stage i).next = none) (bare : (stage i).operation = none → (stage i).outputs = #[]) :
    Ended t := by
  refine ended.step fun j => ?_
  rw [SameEnd,stages]
  split
  next same =>
    subst same
    exact .inr (.inl ⟨last,bare⟩)
  next => exact .inl ⟨rfl,rfl,rfl⟩

theorem of_append (ended : Ended s) {i : Nat} (op : Operation)
    (holds : (s.stage i).operation ≠ none) (bare : (s.stage i).outputs = #[]) :
    Ended (s.append i op) := by
  refine ended.step fun j => ?_
  rw [SameEnd,stage_append s i op j (inside_of_holds holds)]
  split
  · exact .inr (.inl ⟨rfl,nofun⟩)
  · split
    next same => exact .inr (.inr (same ▸ ⟨holds,bare⟩))
    next => exact .inl ⟨rfl,rfl,rfl⟩

theorem of_splice (ended : Ended s) {a first : Nat} (holds : (s.stage a).operation ≠ none)
    (bare : (s.stage a).outputs = #[]) : Ended (s.splice a first) := by
  refine ended.step fun j => ?_
  have stage : (s.splice a first).stage j = _ := getD_modify ..
  rw [getD_modify] at stage
  change _ = if _ then { (if j = a ∧ _ then { s.stage j with next := _ } else s.stage j) with prev := _ }
    else if j = a ∧ _ then { s.stage j with next := _ } else s.stage j at stage
  by_cases same : j = a
  · subst same
    have ends : ((s.splice j first).stage j).operation = (s.stage j).operation ∧
        ((s.splice j first).stage j).outputs = (s.stage j).outputs := by
      rw [stage]
      split <;> split <;> exact ⟨rfl,rfl⟩
    exact .inr (.inr ⟨ends.1 ▸ holds,ends.2 ▸ bare⟩)
  · refine .inl ?_
    simp only [same,false_and,if_false] at stage
    rw [SameEnd,stage]
    split <;> exact ⟨rfl,rfl,rfl⟩

theorem of_growth (ended : Ended s) (growth : Growth s t) : Ended t := by
  cases growth with
  | paint frozen => exact ended.of_stages (by rw [frozen.rest])
  | tables _ kept => exact ended.of_stages kept.stages
  | place pipes => exact ended.of_last _ (s.stage_addChain pipes) rfl fun _ => rfl
  | attach p name => exact ended.of_last _ (s.stage_attach p name) rfl nofun
  | hold i op _ inside vacant =>
    have stages (j : Nat) : (s.hold i op).stage j = _ := getD_modify_at _ _ _ i j inside
    exact ended.of_last i stages (ended.placeholder i vacant).1 nofun
  | append i op _ holds _ bare => exact ended.of_append op holds bare
  | connect i pipes _ holds tail =>
    have stages (j : Nat) := getD_modify_at s.stages (fun stage => { stage with outputs := pipes })
      .empty i j (inside_of_holds holds)
    exact ended.of_last i stages tail fun vacant => absurd vacant holds
  | output i op _ holds tail =>
    have stages (j : Nat) := stage_addOutput s i op j (holds_inside holds)
    refine ended.of_last i stages tail fun vacant => ?_
    have none : (s.stage i).operation = none := vacant
    simp [operationAt,none] at holds

theorem of_change (ended : Ended s) (change : Change s t) : Ended t := by
  cases change with
  | growth growth => exact ended.of_growth growth
  | pipe _ stages => exact ended.of_stages stages
  | splice a b _ _ _ holds _ bare => exact ended.of_splice holds bare
  | close => exact ended.of_stages rfl

end Ended

/-! What a layout says about the links. -/

namespace Layout
variable {s : Session} {chains : List (List Nat)}

theorem later (layout : Layout s chains) {front back : List Nat} {i j : Nat}
    (member : front ++ i :: back ∈ chains) (leads : TransGen s.Leads i j) : j ∈ back := by
  induction leads with
  | single next =>
    rw [Leads,layout.next_eq member] at next
    exact List.mem_of_head? next
  | tail _ next ih =>
    obtain ⟨first,second,rfl⟩ := List.append_of_mem ih
    rw [← List.cons_append,← List.append_assoc] at member
    rw [Leads,layout.next_eq member] at next
    exact List.mem_append_right _ (List.mem_cons_of_mem _ (List.mem_of_head? next))

theorem acyclic (layout : Layout s chains) (i : Nat) : ¬ TransGen s.Leads i i := by
  intro leads
  obtain ⟨j,next,_⟩ := TransGen.head'_iff.mp leads
  have inside : i < s.stages.size := getD_bound s.stages .empty i fun same => by
    rw [Leads,stage,same] at next
    cases next
  obtain ⟨front,back,member⟩ := layout.place_of inside
  have distinct := (List.nodup_flatten.mp layout.nodup).1 _ member
  exact (List.nodup_cons.mp (List.nodup_append.mp distinct).2.1).1 (layout.later member leads)

theorem ordered (layout : Layout s chains) {i j : Nat} (leads : TransGen s.Leads i j)
    (holdsI : (s.stage i).operation ≠ none) (holdsJ : (s.stage j).operation ≠ none) :
    [i,j].Sublist s.printed := by
  obtain ⟨front,back,member⟩ := layout.place_of (inside_of_holds holdsI)
  have pair : [i,j].Sublist (front ++ i :: back) :=
    .trans ((List.singleton_sublist.mpr (layout.later member leads)).cons_cons i)
      (List.sublist_append_right ..)
  have kept := (pair.trans (List.sublist_flatten_of_mem member)).filter
    fun i => (s.stage i).operation.isSome
  have both : [i,j].filter (fun i => (s.stage i).operation.isSome) = [i,j] := by
    simp [Option.isSome_iff_ne_none,holdsI,holdsJ]
  rw [both] at kept
  rw [printed,List.flatMap_def,layout.sequences_eq]
  exact kept

theorem leads_from_head (layout : Layout s chains) {i : Nat} (inside : i < s.stages.size) :
    ReflTransGen s.Leads (s.head i) i := by
  obtain ⟨chain,member,present⟩ := layout.chain_of inside
  obtain ⟨back,rfl⟩ := layout.starts_at_head member present
  have along {before : Option Nat} {first : Nat} {rest : List Nat}
      (linked : Linked s before (first :: rest) none) (present : i ∈ first :: rest) :
      ReflTransGen s.Leads first i := by
    induction rest generalizing before first with
    | nil => rw [List.mem_singleton.mp present]
    | cons second rest ih =>
      rcases List.mem_cons.mp present with rfl | later
      · exact .refl
      · exact .head linked.2.1 (ih linked.2.2 later)
  exact along (layout.linked _ member) present

theorem head_within (layout : Layout s chains) {i fuel : Nat} (inside : i < s.stages.size)
    (enough : s.stages.size ≤ fuel) : s.headWithin fuel i = s.head i := by
  obtain ⟨front,back,member⟩ := layout.place_of inside
  have bound := layout.length_le member
  rw [List.length_append] at bound
  have found (fuel : Nat) (enough : s.stages.size ≤ fuel) :
      some (s.headWithin fuel i) = (front ++ [i]).head? :=
    headWithin_linked front back (layout.linked _ member) (by omega)
  exact Option.some.inj ((found fuel enough).trans (found _ (Nat.le_refl _)).symm)

theorem prev_head (layout : Layout s chains) {i : Nat} (inside : i < s.stages.size) :
    (s.stage (s.head i)).prev = none := by
  obtain ⟨chain,member,present⟩ := layout.chain_of inside
  obtain ⟨back,rfl⟩ := layout.starts_at_head member present
  exact (layout.linked _ member).1

theorem sequence_within (layout : Layout s chains) {i : Nat} (inside : i < s.stages.size) :
    ∃ rest, Linked s (s.stage i).prev (i :: rest) none ∧
      ∀ fuel, s.stages.size ≤ fuel → s.sequenceWithin fuel i = i :: rest := by
  obtain ⟨front,back,member⟩ := layout.place_of inside
  have bound := layout.length_le member
  rw [List.length_append,List.length_cons] at bound
  have linked := ((linked_append front (i :: back)).mp (layout.linked _ member)).2
  refine ⟨back,linked.1 ▸ linked,fun fuel enough => ?_⟩
  exact sequenceWithin_linked linked (by omega)

theorem mem_roots (layout : Layout s chains) {i : Nat} :
    i ∈ s.roots ↔ i < s.stages.size ∧ (s.stage i).prev = none := by
  rw [← Array.mem_toList_iff]
  constructor
  · intro root
    obtain ⟨chain,member,head⟩ := layout.chain_of_root root
    obtain ⟨back,rfl⟩ := List.head?_eq_some_iff.mp head
    exact ⟨layout.mem_flatten.mp (List.mem_flatten.mpr ⟨_,member,by simp⟩),
      (layout.linked _ member).1⟩
  · rintro ⟨inside,prev⟩
    obtain ⟨front,back,member⟩ := layout.place_of inside
    rw [layout.prev_eq member,List.getLast?_eq_none_iff] at prev
    subst prev
    have start : some i ∈ s.roots.toList.map some := by
      rw [← layout.starts]
      exact List.mem_map.mpr ⟨_,member,rfl⟩
    simpa using start

theorem partition (layout : Layout s chains) :
    (s.roots.toList.flatMap s.sequence).Perm (List.range s.stages.size) := by
  rw [List.flatMap_def,← layout.heads_eq,layout.sequences_eq]
  exact layout.cover

theorem shown_flatten (layout : Layout s chains) : s.shown.flatten = s.printed := by
  rw [shown,List.flatten_filter_not_isEmpty,printed,layout.heads_eq,List.filter_flatMap]
  rfl

theorem render_eq (layout : Layout s chains) :
    s.render = ";".intercalate (s.shown.map fun chain => ",".intercalate (chain.map s.stageText)) := by
  have texts (stages : List Nat) : (stages.filterMap s.segment?).map Segment.text =
      (stages.filter fun i => (s.stage i).operation.isSome).map s.stageText := by
    induction stages with
    | nil => rfl
    | cons i rest ih =>
      cases held : (s.stage i).operation with
      | none =>
        have hidden : s.segment? i = none := by simp [segment?,operationAt,held]
        simp [hidden,held,ih]
      | some o =>
        obtain ⟨segment,seen⟩ : ∃ segment, s.segment? i = some segment := by
          simp [segment?,operationAt,held]
        simp [seen,held,ih,stageText]
  have empty (first : Nat) : (s.segments first).isEmpty =
      ((s.sequence first).filter fun i => (s.stage i).operation.isSome).isEmpty := by
    have same := congrArg List.isEmpty (texts (s.sequence first))
    rwa [List.isEmpty_map,List.isEmpty_map] at same
  have kept : s.chains.map (fun chain => ",".intercalate (chain.map Segment.text)) =
      s.shown.map fun chain => ",".intercalate (chain.map s.stageText) := by
    rw [Session.chains,shown,layout.heads_eq,List.filter_map,List.filter_map,List.map_map,List.map_map]
    simp only [Function.comp_def,empty]
    refine List.map_congr_left fun first _ => ?_
    rw [segments,texts]
  rw [render,kept]

theorem chained (layout : Layout s chains) (ended : Ended s) : Chained s where
  inverse := layout.inverse
  acyclic := layout.acyclic
  head _ inside := ⟨layout.prev_head inside,layout.leads_from_head inside,
    fun _ => layout.head_within inside⟩
  sequence i inside := by
    obtain ⟨rest,linked,within⟩ := layout.sequence_within inside
    exact ⟨rest,within _ (Nat.le_refl _),linked,within⟩
  placeholder := ended.placeholder
  outputs := ended.outputs
  rootsOnce := layout.roots_nodup
  roots _ := layout.mem_roots
  partition := layout.partition
  displayed := {
    text := layout.render_eq
    once := by rw [layout.shown_flatten]; exact layout.printed_nodup
    holds _ := by rw [layout.shown_flatten]; exact layout.mem_printed
    ordered _ _ leads holdsI holdsJ := by
      rw [layout.shown_flatten]
      exact layout.ordered leads holdsI holdsJ }

end Layout

theorem chained_of_changes {s t : Session} (changes : ReflTransGen Change s t)
    (laid : ∃ chains, Layout s chains) (ended : Ended s) : (∃ chains, Layout t chains) ∧ Ended t := by
  induction changes with
  | refl => exact ⟨laid,ended⟩
  | tail _ change ih =>
    obtain ⟨⟨_,layout⟩,ended⟩ := ih
    exact ⟨layout.of_change change,ended.of_change change⟩

/-- Whatever programs are run on a new session with whatever handles, and wherever they fail,
the chains of the session are linked both ways, share out its stages and are shown in full. -/
theorem runs_chained {serial : Nat} {catalog : Catalog} {s : Session}
    (runs : Runs (new serial catalog) s) : Chained s := by
  obtain ⟨⟨_,layout⟩,ended⟩ :=
    chained_of_changes runs.changes ⟨[],.of_new serial catalog⟩ (.of_new serial catalog)
  exact layout.chained ended

/-- Two chains of which the second is put behind the first, and in vain behind itself. -/
def spliced : List ((reply : Reply) × Call reply) :=
  [⟨_,.start []⟩,⟨_,.extend ⟨0,0⟩ (.named "testsrc")⟩,⟨_,.start []⟩,⟨_,.link ⟨0,1⟩ ⟨0,0⟩⟩,
    ⟨_,.extend ⟨0,1⟩ (.named "scale")⟩,⟨_,.extend ⟨0,1⟩ (.named "fps")⟩,⟨_,.link ⟨0,0⟩ ⟨0,2⟩⟩,
    ⟨_,.link ⟨0,2⟩ ⟨0,0⟩⟩]

theorem runs_chained_spliced : Chained (carryOut spliced (new 0 .empty)) ∧
    (carryOut spliced (new 0 .empty)).render = "testsrc,scale,fps" :=
  ⟨runs_chained (runs_carryOut (.refl (new 0 .empty)) spliced),by decide +kernel⟩

end MediaGraph.Session
