import MediaGraph.Proofs.Plans
import MediaGraph.Proofs.Runs

/-! Which pipe a consumer reads.
The consumers of a pipe are the readers that were put on it and have got a pipe. One
consumer has the pipe itself; more of them share out a split that the graph puts behind
it, in the order in which they came. -/
namespace MediaGraph
open Session

def Session.Reads (s : Session) (r p : Nat) : Prop :=
  r < s.readers.size ∧ s.Active r ∧ (s.reader r).pipe = p

/-- Stage `i` is a split that the graph has put behind pipe `p`. -/
def Session.Behind (s : Session) (i p : Nat) : Prop := s.Made i ∧ p ∈ s.inputPipes i

namespace Session
section Ledgers
variable {s : Session} {put : List (Nat × Nat)} {took pending : List Nat} {p r : Nat}

theorem takes_cases (kept : Ledger.Kept ⟨s,put,took,pending⟩) (takes : s.Takes pending r p) :
    r ∈ consumers put took p ∨ s.Branch p ∨
      ∃ i, (s.pipe p).splitter = some i ∧ r ∈ (s.stage i).inputs := by
  obtain ⟨resolved,past,points⟩ := takes
  have bound := inside_of_resolved resolved
  rcases kept.2.origin r bound with ⟨q,placed⟩ | ⟨i,owner,made⟩
  · have member : r ∈ consumers put took q :=
      mem_consumers.mpr ⟨(kept.2.turns r).mpr ⟨resolved,q,placed⟩,placed⟩
    cases behind : (s.pipe q).splitter with
    | none =>
      have same : p = q := points.symm.trans (kept.2.whole q behind r member)
      exact .inl (same ▸ member)
    | some i =>
      refine .inr (.inl ⟨i,⟨q,behind⟩,?_⟩)
      have listed : p ∈ ((consumers put took q).filter (· ∉ pending)).map fun r =>
          (s.reader r).pipe :=
        List.mem_map.mpr ⟨r,List.mem_filter.mpr ⟨member,by simpa using past⟩,points⟩
      rw [kept.2.split q i behind] at listed
      exact Array.mem_toList_iff.mp listed
  · obtain ⟨q,behind⟩ := made
    have member : r ∈ (s.stage i).inputs := (kept.1.reading.pads i r).mpr ⟨bound,owner⟩
    obtain ⟨o,x,duplicates⟩ := kept.1.splitting q i behind
    have last : r = x := by simpa [duplicates.reads] using member
    have same : p = q := by rw [← points,last,duplicates.reader]
    exact .inr (.inr ⟨i,same ▸ behind,member⟩)

variable (idle : ∀ x ∈ pending, (s.reader x).resolved = false)
include idle

theorem consumer_past (kept : Ledger.Kept ⟨s,put,took,pending⟩) (member : r ∈ consumers put took p) :
    (s.reader r).resolved = true ∧ r ∉ pending := by
  have resolved := ((kept.2.turns r).mp (mem_consumers.mp member).1).1
  refine ⟨resolved,fun waits => ?_⟩
  simp [idle r waits] at resolved

theorem consumers_few (kept : Ledger.Kept ⟨s,put,took,pending⟩) (own : (s.pipe p).shared = false)
    (first : (s.pipe p).splitter = none) : (consumers put took p).length ≤ 1 := by
  have takes (x : Nat) (member : x ∈ consumers put took p) : s.Takes pending x p := by
    obtain ⟨resolved,past⟩ := consumer_past idle kept member
    exact ⟨resolved,past,kept.2.whole p first x member⟩
  match listed : consumers put took p with
  | [] => exact Nat.zero_le _
  | [_] => exact Nat.le_refl _
  | x :: y :: more =>
    have same : x = y := kept.1.reading.sole p own x y (takes x (by simp [listed]))
      (takes y (by simp [listed]))
    have once : (consumers put took p).Nodup := kept.2.once.filter _
    simp [listed,same] at once

/-- The outputs of a split are shared out among the consumers, in their order. -/
theorem consumers_outputs (kept : Ledger.Kept ⟨s,put,took,pending⟩) {i : Nat}
    (behind : (s.pipe p).splitter = some i) :
    (consumers put took p).map (fun r => (s.reader r).pipe) = (s.stage i).outputs.toList := by
  have past : (consumers put took p).filter (· ∉ pending) = consumers put took p := by
    refine List.filter_eq_self.mpr fun x member => ?_
    simpa using (consumer_past idle kept member).2
  rw [← kept.2.split p i behind,past]

theorem consumers_size (kept : Ledger.Kept ⟨s,put,took,pending⟩) {i : Nat}
    (behind : (s.pipe p).splitter = some i) :
    (consumers put took p).length = (s.stage i).outputs.size := by
  rw [← Array.length_toList,← consumers_outputs idle kept behind,List.length_map]

end Ledgers
end Session

namespace Account

def consumersOf (a : Account) (p : Nat) : List Nat := consumers a.put a.took p

/-- How a pipe is shared out among its consumers. -/
structure Distributed (a : Account) (p : Nat) : Prop where
  once : (a.consumersOf p).Nodup
  consumer : ∀ r, r ∈ a.consumersOf p ↔ (r,p) ∈ a.put ∧ a.session.Active r
  shared : (a.session.pipe p).shared = true →
    (∀ r ∈ a.consumersOf p, a.session.Reads r p) ∧ ∀ i, ¬ a.session.Behind i p
  /-- Nothing has a pipe without consumers; outputs of splits are not consumed as such. -/
  none : (a.session.pipe p).shared = false → a.consumersOf p = [] → ¬ a.session.Branch p →
    ∀ r, ¬ a.session.Reads r p
  one : (a.session.pipe p).shared = false → ∀ r, a.consumersOf p = [r] →
    (∀ x, a.session.Reads x p ↔ x = r) ∧ ∀ i, ¬ a.session.Behind i p
  /-- Several consumers have the outputs of one split, which alone has the pipe. -/
  several : (a.session.pipe p).shared = false → 2 ≤ (a.consumersOf p).length →
    ∃ i o, (∀ j, a.session.Behind j p ↔ j = i) ∧ a.session.inputPipes i = [p] ∧
      (∀ x, a.session.Reads x p ↔ x ∈ (a.session.stage i).inputs) ∧
      (a.session.stage i).operation = some o ∧
      a.session.operation o =
        duplicator (a.session.pipe p).media (a.consumersOf p).length ∧
      ((a.session.pipe p).media = .video ∨ (a.session.pipe p).media = .audio) ∧
      (a.consumersOf p).map (fun r => (a.session.reader r).pipe) =
        (a.session.stage i).outputs.toList
  /-- What is on output `k` of a split is read by consumer `k` of the pipe before it. -/
  branch : ∀ i q, a.session.Behind i q → ∀ k : Nat, (a.session.stage i).outputs[k]? = some p →
    a.consumersOf p = [] ∧ ∃ r, (a.consumersOf q)[k]? = some r ∧ ∀ x, a.session.Reads x p ↔ x = r

section Consumers
variable {a : Account}

theorem reads_iff (kept : Ledger.Kept ⟨a.session,a.put,a.took,[]⟩) {r p : Nat} :
    a.session.Reads r p ↔ (a.session.reader r).resolved = true ∧ (a.session.reader r).pipe = p := by
  constructor
  · rintro ⟨bound,active,points⟩
    exact ⟨by simpa using (kept.1.reading.active r bound).mp active,points⟩
  · rintro ⟨resolved,points⟩
    have bound := inside_of_resolved resolved
    exact ⟨bound,(kept.1.reading.active r bound).mpr (Or.inl resolved),points⟩

theorem reads_sole (kept : Ledger.Kept ⟨a.session,a.put,a.took,[]⟩) {p r x : Nat}
    (own : (a.session.pipe p).shared = false) (first : a.session.Reads r p)
    (second : a.session.Reads x p) : x = r := by
  obtain ⟨resolved,points⟩ := (reads_iff kept).mp first
  obtain ⟨resolved',points'⟩ := (reads_iff kept).mp second
  exact kept.1.reading.sole p own x r ⟨resolved',by simp,points'⟩ ⟨resolved,by simp,points⟩

theorem mem_consumersOf (kept : Ledger.Kept ⟨a.session,a.put,a.took,[]⟩) {p r : Nat} :
    r ∈ a.consumersOf p ↔ (r,p) ∈ a.put ∧ a.session.Active r := by
  rw [consumersOf,mem_consumers,kept.2.turns]
  constructor
  · rintro ⟨⟨resolved,_⟩,placed⟩
    exact ⟨placed,((reads_iff kept).mpr ⟨resolved,rfl⟩).2.1⟩
  · rintro ⟨placed,active⟩
    have bound := (kept.2.placed r p placed).1
    exact ⟨⟨((reads_iff kept).mp ⟨bound,active,rfl⟩).1,p,placed⟩,placed⟩

theorem behind_iff (kept : Ledger.Kept ⟨a.session,a.put,a.took,[]⟩) {i p : Nat} :
    a.session.Behind i p ↔ (a.session.pipe p).splitter = some i := by
  have inputs (q : Nat) (behind : (a.session.pipe q).splitter = some i) :
      a.session.inputPipes i = [q] := by
    obtain ⟨o,r,duplicates⟩ := kept.1.splitting q i behind
    simp [inputPipes,duplicates.reads,duplicates.reader]
  constructor
  · rintro ⟨⟨q,behind⟩,member⟩
    have same : p = q := by simpa [inputs q behind] using member
    exact same ▸ behind
  · intro behind
    exact ⟨⟨p,behind⟩,by simp [inputs p behind]⟩

theorem consumers_whole (kept : Ledger.Kept ⟨a.session,a.put,a.took,[]⟩) {p : Nat}
    (first : (a.session.pipe p).splitter = none) :
    ∀ r ∈ a.consumersOf p, a.session.Reads r p := by
  intro r member
  obtain ⟨placed,active⟩ := (mem_consumersOf kept).mp member
  exact ⟨(kept.2.placed r p placed).1,active,kept.2.whole p first r member⟩

theorem consumers_split (kept : Ledger.Kept ⟨a.session,a.put,a.took,[]⟩) {p i : Nat}
    (behind : (a.session.pipe p).splitter = some i) :
    (a.consumersOf p).map (fun r => (a.session.reader r).pipe) =
      (a.session.stage i).outputs.toList :=
  consumers_outputs (by simp) kept behind

theorem consumers_length (kept : Ledger.Kept ⟨a.session,a.put,a.took,[]⟩) {p i : Nat}
    (behind : (a.session.pipe p).splitter = some i) :
    (a.consumersOf p).length = (a.session.stage i).outputs.size :=
  consumers_size (by simp) kept behind

theorem reads_cases (kept : Ledger.Kept ⟨a.session,a.put,a.took,[]⟩) {r p : Nat}
    (reads : a.session.Reads r p) :
    r ∈ a.consumersOf p ∨ a.session.Branch p ∨
      ∃ i, (a.session.pipe p).splitter = some i ∧ r ∈ (a.session.stage i).inputs := by
  obtain ⟨resolved,points⟩ := (reads_iff kept).mp reads
  exact takes_cases kept ⟨resolved,by simp,points⟩

theorem consumers_many (kept : Ledger.Kept ⟨a.session,a.put,a.took,[]⟩) {p i : Nat}
    (behind : (a.session.pipe p).splitter = some i) : 2 ≤ (a.consumersOf p).length := by
  rw [consumers_length kept behind]
  exact kept.2.several p i behind

theorem consumers_sole (kept : Ledger.Kept ⟨a.session,a.put,a.took,[]⟩) {p r : Nat}
    (own : (a.session.pipe p).shared = false) (first : (a.session.pipe p).splitter = none)
    (outer : ¬ a.session.Branch p) (reads : a.session.Reads r p) : a.consumersOf p = [r] := by
  have member : r ∈ a.consumersOf p := by
    rcases reads_cases kept reads with member | branch | ⟨i,behind,_⟩
    · exact member
    · exact absurd branch outer
    · simp [first] at behind
  refine filter_eq_singleton kept.2.once fun x => ?_
  constructor
  · intro listed
    have consumer : x ∈ a.consumersOf p := List.mem_filter.mpr listed
    exact reads_sole kept own reads (consumers_whole kept first x consumer)
  · rintro rfl
    exact List.mem_filter.mp member

theorem Consistent.distributed (consistent : a.Consistent) (p : Nat) : a.Distributed p := by
  have kept := consistent.kept
  have undivided (shared : (a.session.pipe p).shared = true) :
      (a.session.pipe p).splitter = none := by
    cases behind : (a.session.pipe p).splitter with
    | none => rfl
    | some i =>
      obtain ⟨o,r,duplicates⟩ := kept.1.splitting p i behind
      simp [duplicates.own] at shared
  constructor
  case once => exact kept.2.once.filter _
  case consumer => exact fun r => mem_consumersOf kept
  case shared =>
    intro shared
    refine ⟨consumers_whole kept (undivided shared),fun i behind => ?_⟩
    have first := undivided shared
    rw [(behind_iff kept).mp behind] at first
    cases first
  case none =>
    intro own empty outer r reads
    rcases reads_cases kept reads with member | branch | ⟨i,behind,_⟩
    · simp [empty] at member
    · exact outer branch
    · have := consumers_many kept behind
      simp [empty] at this
  case one =>
    intro own r only
    have first : (a.session.pipe p).splitter = none := by
      cases behind : (a.session.pipe p).splitter with
      | none => rfl
      | some i =>
        have := consumers_many kept behind
        simp [only] at this
    have reads := consumers_whole kept first r (by simp [only])
    refine ⟨fun x => ⟨fun other => reads_sole kept own reads other,fun same => same ▸ reads⟩,
      fun i behind => ?_⟩
    rw [(behind_iff kept).mp behind] at first
    cases first
  case several =>
    intro own enough
    cases behind : (a.session.pipe p).splitter with
    | none =>
      have few := consumers_few (by simp) kept own behind
      exact absurd few (Nat.not_le_of_lt enough)
    | some i =>
      obtain ⟨o,r,duplicates⟩ := kept.1.splitting p i behind
      have outputs := consumers_split kept behind
      have reads : a.session.Reads r p :=
        (reads_iff kept).mpr (by simp [duplicates.reader])
      refine ⟨i,o,fun j => ?_,?_,fun x => ?_,duplicates.holds,?_,duplicates.media,outputs⟩
      · rw [behind_iff kept,behind,Option.some.injEq]
        exact eq_comm
      · simp [inputPipes,duplicates.reads,duplicates.reader]
      · rw [duplicates.reads,List.mem_singleton]
        exact ⟨fun other => reads_sole kept own reads other,fun same => same ▸ reads⟩
      · rw [duplicates.operation,consumers_length kept behind]
  case branch =>
    intro i q behind k found
    have splitter := (behind_iff kept).mp behind
    have member : p ∈ (a.session.stage i).outputs := Array.mem_of_getElem? found
    have branch : a.session.Branch p := ⟨i,behind.1,member⟩
    refine ⟨List.eq_nil_iff_forall_not_mem.mpr fun r listed => ?_,?_⟩
    · exact (kept.2.placed r p ((mem_consumersOf kept).mp listed).1).2.2 branch
    · have place := congrArg (·[k]?) (consumers_split kept splitter)
      simp only [List.getElem?_map,Array.getElem?_toList,found] at place
      obtain ⟨r,there,points⟩ := Option.map_eq_some_iff.mp place
      obtain ⟨placed,active⟩ := (mem_consumersOf kept).mp (List.mem_of_getElem? there)
      have reads : a.session.Reads r p := ⟨(kept.2.placed r q placed).1,active,points⟩
      have own := kept.1.feeding.own i p member
      exact ⟨r,there,fun x => ⟨fun other => reads_sole kept own reads other,fun same => same ▸ reads⟩⟩

end Consumers

/-- In every session that calls come to, each pipe is shared out among its consumers by
one split, as soon as there are two of them. -/
theorem fanOut_exact {catalog : Catalog} {a : Account} (reached : Reached catalog a) (p : Nat) :
    a.Distributed p :=
  reached.consistent.distributed p

theorem fanOut_exact_twice : ∃ a,
    run? (scaledSource ++ [⟨_,.complete [("a",⟨0,1⟩),("b",⟨0,1⟩)]⟩]) (.new 0 .empty) = some a ∧
      a.Distributed 1 := by
  have runs : (run? (scaledSource ++ [⟨_,.complete [("a",⟨0,1⟩),("b",⟨0,1⟩)]⟩])
      (.new 0 .empty)).isSome = true := by decide +kernel
  obtain ⟨a,ran⟩ := Option.isSome_iff_exists.mp runs
  exact ⟨a,ran,fanOut_exact ((Reached.new 0).run ran) 1⟩

end Account
end MediaGraph
