import MediaGraph.Proofs.Consumers
import MediaGraph.Proofs.Upstream
import MediaGraph.Proofs.WellFormed

/-! A rank for the stages of a completed graph.
Splits are made after the stages that they feed, so that the numbers of stages do not go with
the flow. Halfway between the stage that feeds its pipe and the next one a split has its place:
every other stage keeps its number. -/
namespace MediaGraph
open Relation

namespace Session

/-- Data flows from one shown stage to another: it follows in the chain, or a label that the
one has on its outputs stands on the inputs of the other. -/
def Flows (s : Session) (i j : Nat) : Prop :=
  ∃ a b, s.segment? i = some a ∧ s.segment? j = some b ∧
    ((s.stage i).next = some j ∨ ∃ label ∈ a.outputs, label ∈ b.inputs)

def Conveys (s : Session) (i j : Nat) : Prop :=
  (s.stage i).next = some j ∨ ∃ r p, p ∈ (s.stage i).outputs ∧ r ∈ (s.stage j).inputs ∧ s.Reads r p

/-- A split ranks behind the stage that feeds its pipe and before the next stage. -/
def Ranked (s : Session) (i rank : Nat) : Prop :=
  (¬ s.Made i ∧ rank = 2 * i) ∨
    ∃ p f, (s.pipe p).splitter = some i ∧ p ∈ (s.stage f).outputs ∧ rank = 2 * f + 1

section Ranks
variable {s : Session}

theorem segment_holds {i : Nat} {segment : Segment} (shown : s.segment? i = some segment) :
    (s.stage i).operation ≠ none ∧
      segment.inputs = (s.inputPipes i).map (fun p => (s.pipe p).name) ∧
      segment.outputs = (s.stage i).outputs.toList.map fun p => (s.pipe p).name := by
  obtain ⟨op,held,rfl⟩ := Option.map_eq_some_iff.mp shown
  refine ⟨fun none => ?_,rfl,rfl⟩
  simp [operationAt,none] at held

theorem Flows.conveys (sound : Sound s []) (names : s.WellFormed) {i j : Nat} (flows : s.Flows i j) :
    s.Conveys i j := by
  obtain ⟨a,b,shownA,shownB,next | ⟨label,out,into⟩⟩ := flows
  · exact .inl next
  obtain ⟨holdsA,_,outputs⟩ := segment_holds shownA
  obtain ⟨holdsB,inputs,_⟩ := segment_holds shownB
  rw [outputs] at out
  rw [inputs] at into
  obtain ⟨p,listedP,rfl⟩ := List.mem_map.mp out
  obtain ⟨q,listedQ,same⟩ := List.mem_map.mp into
  have padP : p ∈ s.outputPads := List.mem_flatMap.mpr ⟨i,(mem_printed sound).mpr holdsA,listedP⟩
  have padQ : q ∈ s.inputPads := List.mem_flatMap.mpr ⟨j,(mem_printed sound).mpr holdsB,listedQ⟩
  obtain rfl : q = p := names.names q (by simp [padQ]) p (by simp [padP]) same
  obtain ⟨r,member,points⟩ := List.mem_map.mp listedQ
  obtain ⟨bound,owner⟩ := (sound.reading.pads j r).mp member
  refine .inr ⟨r,q,Array.mem_toList_iff.mp listedP,member,bound,?_,points⟩
  rw [Active,owner]
  exact holdsB

theorem ranked_some (sound : Sound s []) (fed : s.AllFed) (i : Nat) : ∃ rank, s.Ranked i rank := by
  by_cases made : s.Made i
  · obtain ⟨p,behind⟩ := made
    obtain ⟨o,r,duplicates⟩ := sound.splitting p i behind
    have inside : p < s.pipes.size := by
      have bound := inside_of_resolved (s := s) (r := r) (by rw [duplicates.reader])
      have points := sound.reading.inside r bound
      rwa [duplicates.reader] at points
    obtain ⟨f,member⟩ := sound.feeding.feeder p (fed p inside) duplicates.own
    exact ⟨_,.inr ⟨p,f,behind,member,rfl⟩⟩
  · exact ⟨_,.inl ⟨made,rfl⟩⟩

theorem alone_of_made (sound : Sound s []) {i : Nat} (made : s.Made i) :
    (s.stage i).prev = none ∧ (s.stage i).next = none := by
  obtain ⟨p,behind⟩ := made
  obtain ⟨o,r,duplicates⟩ := sound.splitting p i behind
  exact duplicates.alone

theorem Ranked.of_not_made {i rank : Nat} (ranked : s.Ranked i rank) (other : ¬ s.Made i) :
    rank = 2 * i := by
  rcases ranked with ⟨_,same⟩ | ⟨p,_,behind,_⟩
  · exact same
  · exact absurd ⟨p,behind⟩ other

theorem Ranked.of_behind (sound : Sound s []) {i p rank : Nat} (ranked : s.Ranked i rank)
    (behind : (s.pipe p).splitter = some i) :
    ∃ f, p ∈ (s.stage f).outputs ∧ rank = 2 * f + 1 := by
  rcases ranked with ⟨other,_⟩ | ⟨q,f,source,feeds,same⟩
  · exact absurd ⟨p,behind⟩ other
  · obtain rfl := sound.splitting.pipe_unique source behind
    exact ⟨f,feeds,same⟩

theorem Ranked.lt_of_next {i j m n : Nat} (rankedI : s.Ranked i m) (sound : Sound s [])
    (rising : s.Rising) (rankedJ : s.Ranked j n) (next : (s.stage i).next = some j) : m < n := by
  obtain ⟨chains,layout⟩ := sound.layout
  have up := rising i j next
  -- Splits stand alone in their chains.
  have apartI : ¬ s.Made i := fun made => by
    simp [(alone_of_made sound made).2] at next
  have apartJ : ¬ s.Made j := fun made => by
    have before := (layout.inverse i j).mp next
    simp [(alone_of_made sound made).1] at before
  rw [rankedI.of_not_made apartI,rankedJ.of_not_made apartJ]
  omega

end Ranks
end Session

namespace Account
open Session
variable {a : Account}

theorem not_branch_of_behind (consistent : a.Consistent) {p i : Nat}
    (behind : (a.session.pipe p).splitter = some i) : ¬ a.session.Branch p := by
  rintro ⟨j,⟨q,source⟩,member⟩
  obtain ⟨k,place⟩ := Array.getElem?_of_mem member
  have empty := ((consistent.distributed p).branch j q ((behind_iff consistent.kept).mpr source) k place).1
  have enough : 2 ≤ (a.session.stage i).outputs.size := consistent.kept.2.several p i behind
  have length := consumers_length consistent.kept behind
  rw [empty,List.length_nil] at length
  omega

theorem Upstream.lt_of_put (upstream : a.Upstream) (consistent : a.Consistent) {i j m n r p q : Nat}
    (rankedI : a.session.Ranked i m) (rankedJ : a.session.Ranked j n)
    (member : p ∈ (a.session.stage i).outputs) (reads : a.session.Reads r p)
    (owner : (a.session.reader r).owner = .stage j) (placed : (r,q) ∈ a.put) : m < n := by
  have following := consistent.kept.2
  obtain ⟨bound,active,points⟩ := reads
  have consumer := (mem_consumersOf consistent.kept).mpr ⟨placed,active⟩
  rw [rankedJ.of_not_made (following.outer r q placed j owner)]
  cases behind : (a.session.pipe q).splitter with
  | none =>
    -- The reader has the pipe that it was put on, which is no output of a split.
    obtain rfl : q = p := (consumers_whole consistent.kept behind r consumer).2.2.symm.trans points
    have apart : ¬ a.session.Made i := fun made =>
      (following.placed r q placed).2.2 ⟨i,made,member⟩
    have up := upstream r q placed i member j owner
    rw [rankedI.of_not_made apart]
    omega
  | some k =>
    -- The reader has an output of the split behind the pipe that it was put on.
    have listed : p ∈ (a.consumersOf q).map fun r => (a.session.reader r).pipe :=
      List.mem_map.mpr ⟨r,consumer,points⟩
    rw [consumers_split consistent.kept behind,Array.mem_toList_iff] at listed
    obtain rfl : k = i := consistent.kept.1.feeding.unique k i p listed member
    obtain ⟨f,feeds,rfl⟩ := rankedI.of_behind consistent.kept.1 behind
    have up := upstream r q placed f feeds j owner
    omega

theorem lt_of_behind (consistent : a.Consistent) {i j m n p : Nat}
    (rankedI : a.session.Ranked i m) (rankedJ : a.session.Ranked j n)
    (member : p ∈ (a.session.stage i).outputs) (behind : (a.session.pipe p).splitter = some j) :
    m < n := by
  obtain ⟨f,feeds,rfl⟩ := rankedJ.of_behind consistent.kept.1 behind
  obtain rfl := consistent.kept.1.feeding.unique f i p feeds member
  have apart : ¬ a.session.Made f := fun made =>
    not_branch_of_behind consistent behind ⟨f,made,member⟩
  rw [rankedI.of_not_made apart]
  omega

theorem Upstream.rank_lt (upstream : a.Upstream) (consistent : a.Consistent)
    (rising : a.session.Rising) {i j m n : Nat} (rankedI : a.session.Ranked i m)
    (rankedJ : a.session.Ranked j n) (conveys : a.session.Conveys i j) : m < n := by
  have sound := consistent.kept.1
  rcases conveys with next | ⟨r,p,member,input,reads⟩
  · exact rankedI.lt_of_next sound rising rankedJ next
  have owner := ((sound.reading.pads j r).mp input).2
  rcases consistent.kept.2.origin r reads.1 with ⟨q,placed⟩ | ⟨k,mine,q,behind⟩
  · exact upstream.lt_of_put consistent rankedI rankedJ member reads owner placed
  · obtain rfl : k = j := Owner.stage.inj (mine.symm.trans owner)
    obtain ⟨o,x,duplicates⟩ := sound.splitting q k behind
    have last : r = x := by simpa [duplicates.reads] using input
    obtain rfl : q = p := by rw [← reads.2.2,last,duplicates.reader]
    exact lt_of_behind consistent rankedI rankedJ member behind

theorem Upstream.acyclic (upstream : a.Upstream) (consistent : a.Consistent)
    (rising : a.session.Rising) (fed : a.session.AllFed) (names : a.session.WellFormed) (i : Nat) :
    ¬ TransGen a.session.Flows i i := by
  have sound := consistent.kept.1
  choose rank ranked using ranked_some sound fed
  have up (i j : Nat) (flows : a.session.Flows i j) : rank i < rank j :=
    upstream.rank_lt consistent rising (ranked i) (ranked j) (flows.conveys sound names)
  intro round
  have climbs : ∀ j, TransGen a.session.Flows i j → rank i < rank j := by
    intro j path
    induction path with
    | single flows => exact up _ _ flows
    | tail _ flows ih => exact Nat.lt_trans ih (up _ _ flows)
  exact Nat.lt_irrefl _ (climbs i round)

end Account
end MediaGraph
