import Mathlib.Data.List.Induction
import Mathlib.Data.List.Nodup
import Mathlib.Data.List.Pairwise
import MediaGraph.Proofs.Steps
import MediaGraph.Session.Render

/-! How stages lie in chains.
The chains of a session are lists of stages that share out the table of stages;
each is linked both ways and begins with a root. -/
namespace MediaGraph.Session

/-- Stages follow each other, behind `before` and in front of `after`. -/
def Linked (s : Session) : Option Nat → List Nat → Option Nat → Prop
  | _, [], _ => True
  | before, i :: rest, after =>
    (s.stage i).prev = before ∧ (s.stage i).next = rest.head?.or after ∧
      Linked s (some i) rest after

theorem Linked.congr {s t : Session} {before after : Option Nat} {stages : List Nat}
    (linked : Linked s before stages after)
    (same : ∀ i ∈ stages, (t.stage i).prev = (s.stage i).prev ∧ (t.stage i).next = (s.stage i).next) :
    Linked t before stages after := by
  induction stages generalizing before with
  | nil => trivial
  | cons i rest ih =>
    obtain ⟨prev,next,linked⟩ := linked
    obtain ⟨samePrev,sameNext⟩ := same i (by simp)
    exact ⟨samePrev.trans prev,sameNext.trans next,
      ih linked (fun j member => same j (by simp [member]))⟩

theorem linked_append {s : Session} {before after : Option Nat} (first second : List Nat) :
    Linked s before (first ++ second) after ↔
      Linked s before first (second.head?.or after) ∧
        Linked s (first.getLast?.or before) second after := by
  induction first generalizing before with
  | nil => simp [Linked]
  | cons i rest ih =>
    rw [List.cons_append,Linked,Linked,ih]
    cases rest with
    | nil => simp [Linked,and_assoc]
    | cons j rest =>
      rw [List.getLast?_cons_cons,List.getLast?_eq_some_getLast (List.cons_ne_nil j rest)]
      simp [and_assoc]

theorem Linked.prev {s : Session} {before after : Option Nat} {first second : List Nat} {i : Nat}
    (linked : Linked s before (first ++ i :: second) after) :
    (s.stage i).prev = first.getLast?.or before :=
  ((linked_append first (i :: second)).mp linked).2.1

theorem Linked.next {s : Session} {before after : Option Nat} {first second : List Nat} {i : Nat}
    (linked : Linked s before (first ++ i :: second) after) :
    (s.stage i).next = second.head?.or after :=
  ((linked_append first (i :: second)).mp linked).2.2.1

theorem sequenceWithin_linked {s : Session} {before : Option Nat} {i fuel : Nat} {rest : List Nat}
    (linked : Linked s before (i :: rest) none) (enough : rest.length ≤ fuel) :
    s.sequenceWithin fuel i = i :: rest := by
  induction rest generalizing before i fuel with
  | nil =>
    have next : (s.stage i).next = none := linked.2.1
    cases fuel <;> simp [sequenceWithin,next]
  | cons j rest ih =>
    have next : (s.stage i).next = some j := linked.2.1
    cases fuel with
    | zero => simp at enough
    | succ fuel =>
      simp only [sequenceWithin,next]
      rw [ih linked.2.2 (by simpa using enough)]

theorem headWithin_linked {s : Session} {after : Option Nat} {i fuel : Nat} (first second : List Nat)
    (linked : Linked s none (first ++ i :: second) after) (enough : first.length ≤ fuel) :
    some (s.headWithin fuel i) = (first ++ [i]).head? := by
  induction first using List.reverseRecOn generalizing i second fuel with
  | nil =>
    have prev : (s.stage i).prev = none := linked.prev
    cases fuel <;> simp [headWithin,prev]
  | append_singleton rest j ih =>
    have prev : (s.stage i).prev = some j := by simpa using linked.prev
    cases fuel with
    | zero => simp at enough
    | succ fuel =>
      simp only [headWithin,prev]
      rw [List.append_assoc] at linked
      rw [ih (i :: second) linked (by simpa using enough)]
      cases rest <;> rfl

theorem eraseDups_nodup {α : Type} [BEq α] [LawfulBEq α] {list : List α} (distinct : list.Nodup) :
    list.eraseDups = list := by
  induction list with
  | nil => rfl
  | cons x rest ih =>
    obtain ⟨apart,distinct⟩ := List.nodup_cons.mp distinct
    have kept : rest.filter (fun y => !y == x) = rest := by
      refine List.filter_eq_self.mpr fun y member => ?_
      have other : y ≠ x := fun same => apart (same ▸ member)
      simp [other]
    rw [List.eraseDups_cons,kept,ih distinct]

def joined (first second : List Nat) (chains : List (List Nat)) : List (List Nat) :=
  (chains.filter (· != second)).map fun chain => if chain = first then chain ++ second else chain

theorem joined_flatten {chains : List (List Nat)} {first second : List Nat}
    (memberFirst : first ∈ chains) (memberSecond : second ∈ chains) (other : first ≠ second)
    (distinct : chains.Nodup) : (joined first second chains).flatten.Perm chains.flatten := by
  have present : first ∈ chains.filter (· != second) :=
    List.mem_filter.mpr ⟨memberFirst,by simpa using other⟩
  have left : (chains.filter (· != second)).Nodup := distinct.filter _
  rw [joined]
  obtain ⟨before,after,split⟩ := List.append_of_mem present
  rw [split] at left ⊢
  have absent : first ∉ before ∧ first ∉ after := by
    have order : (before ++ first :: after).Perm (first :: (before ++ after)) := List.perm_middle
    have moved := order.nodup_iff.mp left
    simpa using (List.nodup_cons.mp moved).1
  have unchanged (list : List (List Nat)) (apart : first ∉ list) :
      (list.map fun chain => if chain = first then chain ++ second else chain) = list := by
    refine (List.map_congr_left fun chain member => ?_).trans (List.map_id _)
    have ne : chain ≠ first := fun same => apart (same ▸ member)
    simp [ne]
  have whole : (second :: (before ++ first :: after)).Perm chains := by
    rw [← split,← distinct.erase_eq_filter]
    exact (List.perm_cons_erase memberSecond).symm
  rw [List.map_append,List.map_cons,unchanged before absent.1,unchanged after absent.2,if_pos rfl]
  refine List.Perm.trans ?_ whole.flatten
  simp only [List.flatten_append,List.flatten_cons]
  calc
    (before.flatten ++ (first ++ second ++ after.flatten)).Perm
        (before.flatten ++ (second ++ (first ++ after.flatten))) := by
      rw [← List.append_assoc second]
      exact (List.perm_append_comm.append_right _).append_left _
    List.Perm _ (second ++ (before.flatten ++ (first ++ after.flatten))) := by
      rw [← List.append_assoc,← List.append_assoc second]
      exact List.perm_append_comm.append_right _

/-- The chains of a session, in the order of their roots. -/
structure Layout (s : Session) (chains : List (List Nat)) : Prop where
  linked : ∀ chain ∈ chains, Linked s none chain none
  starts : chains.map List.head? = s.roots.toList.map some
  cover : chains.flatten.Perm (List.range s.stages.size)

namespace Layout
variable {s t : Session} {chains : List (List Nat)}

theorem of_new (serial : Nat) (catalog : Catalog) : Layout (new serial catalog) [] where
  linked := by simp
  starts := rfl
  cover := List.Perm.refl _

theorem congr (layout : Layout s chains)
    (same : ∀ i, (t.stage i).prev = (s.stage i).prev ∧ (t.stage i).next = (s.stage i).next)
    (size : t.stages.size = s.stages.size) (roots : t.roots = s.roots) : Layout t chains where
  linked chain member := (layout.linked chain member).congr fun i _ => same i
  starts := by rw [roots]; exact layout.starts
  cover := by rw [size]; exact layout.cover

theorem nodup (layout : Layout s chains) : chains.flatten.Nodup :=
  layout.cover.nodup_iff.mpr List.nodup_range

theorem nonempty (layout : Layout s chains) {chain : List Nat} (member : chain ∈ chains) :
    chain ≠ [] := by
  rintro rfl
  have start : (none : Option Nat) ∈ s.roots.toList.map some := by
    rw [← layout.starts]
    exact List.mem_map.mpr ⟨[],member,rfl⟩
  simp at start

theorem mem_flatten (layout : Layout s chains) {i : Nat} :
    i ∈ chains.flatten ↔ i < s.stages.size := by
  rw [layout.cover.mem_iff,List.mem_range]

theorem chain_of (layout : Layout s chains) {i : Nat} (inside : i < s.stages.size) :
    ∃ chain ∈ chains, i ∈ chain :=
  List.mem_flatten.mp (layout.mem_flatten.mpr inside)

theorem next_eq (layout : Layout s chains) {front back : List Nat} {i : Nat}
    (member : front ++ i :: back ∈ chains) : (s.stage i).next = back.head? := by
  rw [(layout.linked _ member).next,Option.or_none]

theorem prev_eq (layout : Layout s chains) {front back : List Nat} {i : Nat}
    (member : front ++ i :: back ∈ chains) : (s.stage i).prev = front.getLast? := by
  rw [(layout.linked _ member).prev,Option.or_none]

theorem place_of (layout : Layout s chains) {i : Nat} (inside : i < s.stages.size) :
    ∃ front back, front ++ i :: back ∈ chains := by
  obtain ⟨chain,member,present⟩ := layout.chain_of inside
  obtain ⟨front,back,rfl⟩ := List.append_of_mem present
  exact ⟨front,back,member⟩

theorem inverse (layout : Layout s chains) (i j : Nat) :
    (s.stage i).next = some j ↔ (s.stage j).prev = some i := by
  constructor
  · intro next
    have inside : i < s.stages.size := getD_bound s.stages .empty i fun same => by
      rw [stage,same] at next
      cases next
    obtain ⟨front,back,member⟩ := layout.place_of inside
    rw [layout.next_eq member] at next
    obtain ⟨rest,rfl⟩ := List.head?_eq_some_iff.mp next
    rw [List.append_cons] at member
    simp [layout.prev_eq member]
  · intro prev
    have inside : j < s.stages.size := getD_bound s.stages .empty j fun same => by
      rw [stage,same] at prev
      cases prev
    obtain ⟨front,back,member⟩ := layout.place_of inside
    rw [layout.prev_eq member] at prev
    obtain ⟨rest,rfl⟩ := List.getLast?_eq_some_iff.mp prev
    rw [List.append_assoc] at member
    exact layout.next_eq member

theorem chain_unique (layout : Layout s chains) {first second : List Nat} {i : Nat}
    (memberFirst : first ∈ chains) (memberSecond : second ∈ chains)
    (inFirst : i ∈ first) (inSecond : i ∈ second) : first = second := by
  have apart := (List.nodup_flatten.mp layout.nodup).2
  have mirrored : Std.Symm (List.Disjoint : List Nat → List Nat → Prop) :=
    ⟨fun _ _ disjoint _ second first => disjoint first second⟩
  by_cases same : first = second
  · exact same
  · exact (apart.forall memberFirst memberSecond same inFirst inSecond).elim

theorem chains_nodup (layout : Layout s chains) : chains.Nodup := by
  have apart := (List.nodup_flatten.mp layout.nodup).2
  refine apart.imp_of_mem fun {first second} memberFirst _ disjoint same => ?_
  obtain ⟨i,present⟩ := List.exists_mem_of_ne_nil first (layout.nonempty memberFirst)
  exact disjoint present (same ▸ present)

theorem length_le (layout : Layout s chains) {chain : List Nat} (member : chain ∈ chains) :
    chain.length ≤ s.stages.size := by
  have inner : chain.Sublist chains.flatten := List.sublist_flatten_of_mem member
  simpa [layout.cover.length_eq] using inner.length_le

theorem sequence_eq (layout : Layout s chains) {i : Nat} {rest : List Nat}
    (member : i :: rest ∈ chains) : s.sequence i = i :: rest := by
  have bound := layout.length_le member
  exact sequenceWithin_linked (layout.linked _ member) (by simp at bound; omega)

theorem head_eq (layout : Layout s chains) {chain : List Nat} {i : Nat}
    (member : chain ∈ chains) (present : i ∈ chain) : some (s.head i) = chain.head? := by
  obtain ⟨first,second,rfl⟩ := List.append_of_mem present
  have bound := layout.length_le member
  rw [head,headWithin_linked first second (layout.linked _ member) (by simp at bound; omega)]
  cases first <;> rfl

theorem starts_at_head (layout : Layout s chains) {chain : List Nat} {i : Nat}
    (member : chain ∈ chains) (present : i ∈ chain) : ∃ back, chain = s.head i :: back := by
  have head := layout.head_eq member present
  cases chain with
  | nil => simp at present
  | cons first back => exact ⟨back,by simpa using head.symm⟩

theorem roots_nodup (layout : Layout s chains) : s.roots.toList.Nodup := by
  have distinct : (s.roots.toList.map some).Nodup := by
    rw [← layout.starts]
    refine layout.chains_nodup.map_on fun first memberFirst second memberSecond same => ?_
    obtain ⟨i,present⟩ := List.exists_mem_of_ne_nil first (layout.nonempty memberFirst)
    obtain ⟨root,head⟩ : ∃ root, first.head? = some root :=
      ⟨first.head (layout.nonempty memberFirst),List.head?_eq_some_head _⟩
    exact layout.chain_unique memberFirst memberSecond (List.mem_of_head? head)
      (List.mem_of_head? (same ▸ head))
  exact List.Nodup.of_map some distinct

theorem chain_of_root (layout : Layout s chains) {root : Nat} (member : root ∈ s.roots.toList) :
    ∃ chain ∈ chains, chain.head? = some root := by
  have start : some root ∈ chains.map List.head? := by
    rw [layout.starts]
    exact List.mem_map.mpr ⟨root,member,rfl⟩
  obtain ⟨chain,present,head⟩ := List.mem_map.mp start
  exact ⟨chain,present,head⟩

theorem heads_eq (layout : Layout s chains) : s.heads = s.roots.toList := by
  have fixed : s.roots.toList.map s.head = s.roots.toList := by
    refine (List.map_congr_left fun root member => ?_).trans (List.map_id _)
    obtain ⟨chain,present,head⟩ := layout.chain_of_root member
    exact Option.some.inj ((layout.head_eq present (List.mem_of_head? head)).trans head)
  rw [heads,fixed]
  exact eraseDups_nodup layout.roots_nodup

theorem sequences_eq (layout : Layout s chains) : s.heads.map s.sequence = chains := by
  have each : ∀ chain ∈ chains, ∃ root, chain.head? = some root ∧ s.sequence root = chain := by
    intro chain member
    cases chain with
    | nil => exact absurd rfl (layout.nonempty member)
    | cons root rest => exact ⟨root,rfl,layout.sequence_eq member⟩
  have ends : chains.map (fun chain => (chain.head?.map s.sequence).getD []) = chains := by
    refine (List.map_congr_left fun chain member => ?_).trans (List.map_id _)
    obtain ⟨root,head,sequence⟩ := each chain member
    simp [head,sequence]
  have moved : s.roots.toList.map s.sequence =
      (s.roots.toList.map some).map fun root => (root.map s.sequence).getD [] := by
    simp [List.map_map,Function.comp_def]
  rw [layout.heads_eq,moved,← layout.starts,List.map_map]
  exact ends

theorem push (layout : Layout s chains) (bare : (t.stage s.stages.size).prev = none ∧
      (t.stage s.stages.size).next = none)
    (same : ∀ i, i ≠ s.stages.size →
      (t.stage i).prev = (s.stage i).prev ∧ (t.stage i).next = (s.stage i).next)
    (size : t.stages.size = s.stages.size + 1) (roots : t.roots = s.roots.push s.stages.size) :
    Layout t (chains ++ [[s.stages.size]]) where
  linked chain member := by
    rcases List.mem_append.mp member with old | new
    · refine (layout.linked chain old).congr fun i present => same i ?_
      have inside := layout.mem_flatten.mp (List.mem_flatten.mpr ⟨chain,old,present⟩)
      omega
    · obtain rfl := List.mem_singleton.mp new
      exact ⟨bare.1,bare.2,trivial⟩
  starts := by rw [roots]; simp [layout.starts]
  cover := by
    rw [size,List.range_succ,List.flatten_append]
    simpa using layout.cover.append_right [s.stages.size]

theorem of_addChain (layout : Layout s chains) (pipes : List Nat) :
    Layout (s.addChain pipes) (chains ++ [[s.stages.size]]) := by
  refine layout.push ?_ ?_ ?_ ?_
  · simp [stage_addChain]
  · intro i other
    simp [stage_addChain,other]
  · simp [addChain_eq]
  · simp [addChain_eq]

theorem of_attach (layout : Layout s chains) (p : Nat) (name : String) :
    Layout (s.attach p name) (chains ++ [[s.stages.size]]) := by
  refine layout.push ?_ ?_ ?_ rfl
  · simp [stage_attach]
  · intro i other
    simp [stage_attach,other]
  · simp [attach]

theorem ends_with (layout : Layout s chains) {i : Nat} (inside : i < s.stages.size)
    (tail : (s.stage i).next = none) : ∃ front, front ++ [i] ∈ chains := by
  obtain ⟨chain,member,present⟩ := layout.chain_of inside
  obtain ⟨front,back,rfl⟩ := List.append_of_mem present
  have next := (layout.linked _ member).next
  cases back with
  | nil => exact ⟨front,member⟩
  | cons j back => simp [tail] at next

theorem not_mem_of_ne (layout : Layout s chains) {first second : List Nat} {i : Nat}
    (memberFirst : first ∈ chains) (memberSecond : second ∈ chains) (other : first ≠ second)
    (inFirst : i ∈ first) : i ∉ second :=
  fun inSecond => other (layout.chain_unique memberFirst memberSecond inFirst inSecond)

theorem starts_joined (layout : Layout s chains) {a first : Nat} {front back : List Nat}
    (memberFirst : first :: back ∈ chains) :
    (joined (front ++ [a]) (first :: back) chains).map List.head? =
      (s.splice a first).roots.toList.map some := by
  have sameStart (chain : List Nat) :
      (if chain = front ++ [a] then chain ++ first :: back else chain).head? = chain.head? := by
    split
    next same => subst same; cases front <;> rfl
    next => rfl
  have byHead : chains.filter (· != first :: back) =
      chains.filter ((· != some first) ∘ List.head?) := by
    refine List.filter_congr fun chain member => ?_
    by_cases same : chain = first :: back
    · simp [same]
    · have apart : chain.head? ≠ some first := fun head =>
        layout.not_mem_of_ne member memberFirst same (List.mem_of_head? head) (by simp)
      rw [Function.comp_apply,bne_iff_ne.mpr same,bne_iff_ne.mpr apart]
  rw [joined,List.map_map]
  simp only [Function.comp_def,sameStart]
  rw [byHead,← List.filter_map,layout.starts,List.filter_map]
  have unwrapped (root : Nat) : (some root != some first) = (root != first) := by
    by_cases same : root = first <;> simp [bne,same]
  simp [splice,Function.comp_def,unwrapped]

/-- Splicing joins two chains and takes the second away from its own place. -/
theorem of_splice (layout : Layout s chains) {a first : Nat} {front back : List Nat}
    (memberA : front ++ [a] ∈ chains) (memberFirst : first :: back ∈ chains)
    (other : front ++ [a] ≠ first :: back) :
    Layout (s.splice a first) (joined (front ++ [a]) (first :: back) chains) := by
  have insideA : a < s.stages.size :=
    layout.mem_flatten.mp (List.mem_flatten.mpr ⟨_,memberA,by simp⟩)
  have insideFirst : first < s.stages.size :=
    layout.mem_flatten.mp (List.mem_flatten.mpr ⟨_,memberFirst,by simp⟩)
  have notInA (j : Nat) (present : j ∈ first :: back) : j ∉ front ++ [a] :=
    layout.not_mem_of_ne memberFirst memberA other.symm present
  have ne : first ≠ a := by
    rintro rfl
    exact notInA first (by simp) (by simp)
  have stage := fun j => stage_splice s a first j insideA ne insideFirst
  refine ⟨fun chain member => ?_,?_,?_⟩
  · obtain ⟨old,present,rfl⟩ := List.mem_map.mp member
    have notSecond : old ≠ first :: back := by simpa using (List.mem_filter.mp present).2
    replace present := (List.mem_filter.mp present).1
    split
    next same =>
      subst same
      obtain ⟨linkedFront,prevA,_,_⟩ := (linked_append front [a]).mp (layout.linked _ memberA)
      obtain ⟨_,nextFirst,linkedBack⟩ := layout.linked _ memberFirst
      have distinctA := (List.nodup_flatten.mp layout.nodup).1 _ memberA
      have distinctFirst := (List.nodup_flatten.mp layout.nodup).1 _ memberFirst
      rw [List.append_assoc]
      refine (linked_append front _).mpr ⟨linkedFront.congr fun j inFront => ?_,?_,?_,?_,?_,?_⟩
      · have notA : j ≠ a := (List.nodup_append.mp distinctA).2.2 j inFront a (by simp)
        have notFirst : j ≠ first := by
          rintro rfl
          exact notInA j (by simp) (by simp [inFront])
        simp [stage,notA,notFirst]
      · simpa [stage] using prevA
      · simp [stage]
      · simp [stage,ne]
      · simpa [stage,ne] using nextFirst
      · refine linkedBack.congr fun j inBack => ?_
        have notFirst : j ≠ first := by
          rintro rfl
          exact (List.nodup_cons.mp distinctFirst).1 inBack
        have notA : j ≠ a := by
          rintro rfl
          exact notInA j (by simp [inBack]) (by simp)
        simp [stage,notA,notFirst]
    next apart =>
      refine (layout.linked _ present).congr fun j inOld => ?_
      have notA : j ≠ a := by
        rintro rfl
        exact layout.not_mem_of_ne present memberA apart inOld (by simp)
      have notFirst : j ≠ first := by
        rintro rfl
        exact layout.not_mem_of_ne present memberFirst notSecond inOld (by simp)
      simp [stage,notA,notFirst]
  · exact layout.starts_joined memberFirst
  · have size : (s.splice a first).stages.size = s.stages.size := by simp [splice]
    rw [size]
    exact (joined_flatten memberA memberFirst other layout.chains_nodup).trans layout.cover

theorem of_link (layout : Layout s chains) {a b : Nat} (insideA : a < s.stages.size)
    (insideB : b < s.stages.size) (tail : (s.stage a).next = none)
    (apart : a ∉ s.sequence (s.head b)) : ∃ chains, Layout (s.splice a (s.head b)) chains := by
  obtain ⟨front,memberA⟩ := layout.ends_with insideA tail
  obtain ⟨chain,memberB,present⟩ := layout.chain_of insideB
  obtain ⟨back,rfl⟩ := layout.starts_at_head memberB present
  rw [layout.sequence_eq memberB] at apart
  exact ⟨_,layout.of_splice memberA memberB fun same => apart (same ▸ by simp)⟩

theorem of_append (layout : Layout s chains) {i : Nat} {front : List Nat} (op : Operation)
    (member : front ++ [i] ∈ chains) :
    Layout (s.append i op)
      (joined (front ++ [i]) [s.stages.size] (chains ++ [[s.stages.size]])) := by
  have inside : i < s.stages.size :=
    layout.mem_flatten.mp (List.mem_flatten.mpr ⟨_,member,by simp⟩)
  -- The new stage stands on its own for a moment and is spliced then.
  let alone : Session :=
    { s with
      stages := s.stages.push ⟨some s.operations.size,[],#[],none,none⟩
      roots := s.roots.push s.stages.size }
  have stage (j : Nat) : alone.stage j =
      if j = s.stages.size then ⟨some s.operations.size,[],#[],none,none⟩ else s.stage j :=
    getD_push ..
  have placed : Layout alone (chains ++ [[s.stages.size]]) := by
    refine layout.push ?_ ?_ ?_ rfl
    · simp [stage]
    · intro j other
      simp [stage,other]
    · simp [alone]
  have other : front ++ [i] ≠ [s.stages.size] := by
    intro same
    have present : i ∈ [s.stages.size] := same ▸ (by simp : i ∈ front ++ [i])
    simp at present
    omega
  have spliced := placed.of_splice (List.mem_append_left _ member) (by simp) other
  have fresh : s.stages.size ∉ s.roots.toList := by
    intro root
    obtain ⟨chain,present,head⟩ := layout.chain_of_root root
    have bound := layout.mem_flatten.mp
      (List.mem_flatten.mpr ⟨chain,present,List.mem_of_head? head⟩)
    omega
  refine spliced.congr (fun j => ?_) ?_ ?_
  · have ne : s.stages.size ≠ i := by omega
    rw [stage_append s i op j inside,
      stage_splice alone i s.stages.size j (by simp [alone]; omega) ne (by simp [alone]),stage]
    by_cases last : j = s.stages.size
    · subst last
      simp [ne]
    · by_cases same : j = i <;> simp [same,last,Ne.symm ne]
  · simp [append,splice,alone]
  · have kept : s.roots.filter (· != s.stages.size) = s.roots := by
      apply Array.ext'
      rw [Array.toList_filter]
      refine List.filter_eq_self.mpr fun root present => ?_
      have other : root ≠ s.stages.size := fun same => fresh (same ▸ present)
      simpa using other
    simp [splice,alone,append,kept]

end Layout
end MediaGraph.Session
