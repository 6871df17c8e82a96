import MediaGraph.Proofs.Gains
import MediaGraph.Proofs.Handles

/-! The readers that pipes keep track of.
A pipe that is not shared lists the readers that point at it, and may have a split behind it. A call
that fails can stop between any two of its steps, so what is kept here is what each single step keeps. -/
namespace MediaGraph.Session
open Relation

/-- Stage `i` duplicates pipe `p`, stands alone and reads nothing else. -/
structure FansOut (s : Session) (i p : Nat) : Prop where
  operation : ∃ op, s.operationAt i = some op ∧ Divider op.name ∧ op.outputs = .dynamic
  input : ∃ r, (s.stage i).inputs = [r] ∧ (s.reader r).pipe = p ∧ (s.reader r).resolved = true
  alone : (s.stage i).prev = none ∧ (s.stage i).next = none

/-- Pipes list the readers that point at them, and what stands behind a pipe as its split is one. -/
structure Grouped (s : Session) : Prop where
  group : ∀ p, (s.pipe p).shared = false → s.Lists (s.pipe p).readers fun reader => reader.pipe = p
  shared : ∀ p, (s.pipe p).shared = true → (s.pipe p).readers = []
  inside : ∀ r, r < s.readers.size → (s.reader r).pipe < s.pipes.size
  pads : ∀ i, s.Lists (s.stage i).inputs fun reader => reader.owner = .stage i
  carried : ∀ i p, p ∈ (s.stage i).outputs → p < s.pipes.size
  linked : ∀ i j, (s.stage j).prev = some i → (s.stage i).next = some j
  splits : ∀ p i, (s.pipe p).splitter = some i → s.FansOut i p

/-! Steps. -/

structure Still (s t : Session) : Prop where
  readers : t.readers.size = s.readers.size
  reader : ∀ r, (t.reader r).pipe = (s.reader r).pipe ∧ (t.reader r).owner = (s.reader r).owner
  resolved : ∀ r, (s.reader r).resolved = true → (t.reader r).resolved = true
  pipes : s.pipes.size ≤ t.pipes.size
  shared : ∀ p, p < s.pipes.size → (t.pipe p).shared = (s.pipe p).shared
  group : ∀ p, (t.pipe p).readers = (s.pipe p).readers ∧ (t.pipe p).splitter = (s.pipe p).splitter
  stages : t.stages.size = s.stages.size
  stage : ∀ i, t.stage i = { s.stage i with outputs := (t.stage i).outputs }
  outputs : ∀ i p, p ∈ (t.stage i).outputs → p ∈ (s.stage i).outputs ∨ p < t.pipes.size
  operation : ∀ o, (t.operation o).name = (s.operation o).name ∧
    (t.operation o).outputs = (s.operation o).outputs

def redirect (r target : Nat) (s : Session) : Session :=
  { s with
    pipes := (s.pipes.modify (s.reader r).pipe fun p =>
      { p with readers := p.readers.filter (· != r) }).modify target fun p =>
        { p with readers := p.readers ++ [r] }
    readers := s.readers.modify r fun reader => { reader with pipe := target } }

/-- A reader that is not on the input of a split of the graph's own. -/
def Free (s : Session) (r : Nat) : Prop :=
  r < s.readers.size ∧ ∀ i, (s.reader r).owner = .stage i → s.OuterStage i

/-- One step of a call, as far as readers and the stages that they belong to go. -/
inductive Regroup : Session → Session → Prop
  | still {s t} (still : Still s t) : Regroup s t
  | leave {s} (p) (inside : p < s.pipes.size) : Regroup s (s.addReader p .exported)
  | place {s} (pipes) (inside : ∀ p ∈ pipes, p < s.pipes.size) : Regroup s (s.addChain pipes)
  | hold {s} (i op) (vacant : (s.stage i).operation = none) : Regroup s (s.hold i op)
  | append {s} (i op) (outer : s.OuterStage i) (tail : (s.stage i).next = none) :
      Regroup s (s.append i op)
  | splice {s} (a first) (outerA : s.OuterStage a) (outerB : s.OuterStage first) (apart : first ≠ a)
      (tail : (s.stage a).next = none) : Regroup s (s.splice a first)
  | attach {s} (p name) (inside : p < s.pipes.size) (own : (s.pipe p).shared = false)
      (first : (s.pipe p).splitter = none) (divides : Divider name) : Regroup s (s.attach p name)
  | redirect {s} (r target) (free : s.Free r) (inside : target < s.pipes.size)
      (own : (s.pipe target).shared = false) : Regroup s (s.redirect r target)

section Splits
variable {s t : Session} {i p : Nat}

theorem FansOut.holds (fans : s.FansOut i p) : (s.stage i).operation ≠ none := by
  obtain ⟨op,held,_⟩ := fans.operation
  intro none
  simp [operationAt,none] at held

theorem FansOut.inside (fans : s.FansOut i p) : i < s.stages.size := inside_of_holds fans.holds

theorem inside_of_divider {o : Nat} (divides : Divider (s.operation o).name) : o < s.operations.size := by
  refine getD_bound s.operations (.named "") o fun same => ?_
  rw [Session.operation,same] at divides
  revert divides
  simp [Divider,Operation.named]

theorem FansOut.congr (fans : s.FansOut i p)
    (stage : t.stage i = { s.stage i with outputs := (t.stage i).outputs })
    (operation : ∀ o, o < s.operations.size → (t.operation o).name = (s.operation o).name ∧
      (t.operation o).outputs = (s.operation o).outputs)
    (reader : ∀ r, r < s.readers.size → r ∈ (s.stage i).inputs → (s.reader r).resolved = true →
      (t.reader r).pipe = (s.reader r).pipe ∧ (t.reader r).resolved = true) : t.FansOut i p := by
  obtain ⟨⟨op,held,divides,dynamic⟩,⟨r,inputs,points,resolved⟩,prev,next⟩ := fans
  refine ⟨?_,⟨r,by rw [stage]; exact inputs,?_⟩,by rw [stage]; exact ⟨prev,next⟩⟩
  · obtain ⟨o,holds,rfl⟩ := Option.map_eq_some_iff.mp held
    obtain ⟨name,outputs⟩ := operation o (inside_of_divider divides)
    refine ⟨t.operation o,?_,name ▸ divides,outputs.trans dynamic⟩
    rw [operationAt,stage]
    exact congrArg (Option.map t.operation) holds
  · obtain ⟨same,still⟩ := reader r (inside_of_resolved resolved) (by simp [inputs]) resolved
    exact ⟨same.trans points,still⟩

end Splits

section Redirect
variable (s : Session) (r target q : Nat)

theorem pipe_redirect :
    (s.redirect r target).pipe q =
      { s.pipe q with readers := ((s.redirect r target).pipe q).readers } := by
  unfold redirect pipe
  dsimp only
  rw [getD_modify,getD_modify]
  split <;> split <;> rfl

theorem readers_redirect (inside : (s.reader r).pipe < s.pipes.size) (there : target < s.pipes.size) :
    ((s.redirect r target).pipe q).readers =
      (if q = (s.reader r).pipe then (s.pipe q).readers.filter (· != r) else (s.pipe q).readers) ++
        if q = target then [r] else [] := by
  unfold redirect pipe
  dsimp only
  rw [getD_modify_at _ _ _ _ _ (by rwa [Array.size_modify]),getD_modify_at _ _ _ _ _ inside]
  by_cases here : q = target
  · rw [if_pos here,if_pos here]
    split <;> rfl
  · rw [if_neg here,if_neg here,List.append_nil]
    split <;> rfl

theorem reader_redirect (inside : r < s.readers.size) (x : Nat) :
    (s.redirect r target).reader x =
      if x = r then { s.reader x with pipe := target } else s.reader x :=
  getD_modify_at _ _ _ _ _ inside

end Redirect

namespace Grouped
variable {s t : Session}

theorem of_new (serial : Nat) (catalog : Catalog) : Grouped (new serial catalog) := by
  have noStage (i : Nat) : (new serial catalog).stage i = .empty := rfl
  have noPipe (p : Nat) : (new serial catalog).pipe p = .anonymous "" := rfl
  have noReader : (new serial catalog).readers.size = 0 := rfl
  constructor <;> simp [noStage,noPipe,noReader,Stage.empty,Pipe.anonymous,Lists]

theorem made_fans (grouped : s.Grouped) {i : Nat} (made : s.Made i) : ∃ p, s.FansOut i p := by
  obtain ⟨p,behind⟩ := made
  exact ⟨p,grouped.splits p i behind⟩

theorem made_inside (grouped : s.Grouped) {i : Nat} (made : s.Made i) : i < s.stages.size := by
  obtain ⟨_,fans⟩ := grouped.made_fans made
  exact fans.inside

theorem pipe_unique (grouped : s.Grouped) {p q i : Nat} (first : (s.pipe p).splitter = some i)
    (second : (s.pipe q).splitter = some i) : p = q := by
  obtain ⟨r,inputs,points,_⟩ := (grouped.splits p i first).input
  obtain ⟨x,others,also,_⟩ := (grouped.splits q i second).input
  obtain rfl : r = x := by simpa [inputs] using others
  exact points.symm.trans also

theorem owner_inside (grouped : s.Grouped) {r i : Nat} (inside : r < s.readers.size)
    (owner : (s.reader r).owner = .stage i) : i < s.stages.size := by
  have member := ((grouped.pads i).2 r).mpr ⟨inside,owner⟩
  refine getD_bound s.stages .empty i fun same => ?_
  rw [stage,same] at member
  simp [Stage.empty] at member

theorem free_ne (grouped : s.Grouped) {r x i p : Nat} (free : s.Free r)
    (behind : (s.pipe p).splitter = some i) (member : x ∈ (s.stage i).inputs) : x ≠ r := by
  rintro rfl
  exact (free.2 i (((grouped.pads i).2 x).mp member).2).2 ⟨p,behind⟩

theorem of_still (grouped : s.Grouped) (still : Still s t) : t.Grouped := by
  have lists {list : List Nat} {belongs other : Reader → Prop} (listed : s.Lists list belongs)
      (same : ∀ r, other (t.reader r) ↔ belongs (s.reader r)) : t.Lists list other :=
    ⟨listed.1,fun r => by rw [listed.2,still.readers,same]⟩
  constructor
  case group =>
    intro p own
    rw [(still.group p).1]
    rcases Nat.lt_or_ge p s.pipes.size with old | new
    · rw [still.shared p old] at own
      exact lists (grouped.group p own) fun r => by rw [(still.reader r).1]
    -- No reader points at a pipe that is new.
    · have empty : (s.pipe p).readers = [] := by simp [pipe,new,Pipe.anonymous]
      rw [empty]
      refine ⟨List.nodup_nil,fun r => ?_⟩
      simp only [List.not_mem_nil,false_iff,not_and]
      rintro bound rfl
      rw [still.readers] at bound
      rw [(still.reader r).1] at new
      exact Nat.not_lt.mpr new (grouped.inside r bound)
  case shared =>
    intro p shared
    rw [(still.group p).1]
    rcases Nat.lt_or_ge p s.pipes.size with old | new
    · exact grouped.shared p (still.shared p old ▸ shared)
    · simp [pipe,new,Pipe.anonymous]
  case inside =>
    intro r bound
    rw [(still.reader r).1]
    exact Nat.lt_of_lt_of_le (grouped.inside r (still.readers ▸ bound)) still.pipes
  case pads =>
    intro i
    rw [still.stage i]
    exact lists (grouped.pads i) fun r => by rw [(still.reader r).2]
  case carried =>
    intro i p member
    exact (still.outputs i p member).elim
      (fun before => Nat.lt_of_lt_of_le (grouped.carried i p before) still.pipes) id
  case linked =>
    intro i j before
    rw [still.stage j] at before
    rw [still.stage i]
    exact grouped.linked i j before
  case splits =>
    intro p i behind
    rw [(still.group p).2] at behind
    exact (grouped.splits p i behind).congr (still.stage i) (fun o _ => still.operation o)
      fun r _ _ resolved => ⟨(still.reader r).1,still.resolved r resolved⟩

theorem of_grown (grouped : s.Grouped) (grown : Grown s t)
    (shared : ∀ p, (t.pipe p).shared = true →
      (s.pipe p).shared = true ∧ (t.pipe p).readers = (s.pipe p).readers)
    (stage : ∀ i, t.stage i = s.stage i ∨
      i = s.stages.size ∧ (t.stage i).outputs = #[] ∧ (t.stage i).prev = none)
    (splits : ∀ p i, (t.pipe p).splitter = some i → t.FansOut i p) : t.Grouped := by
  constructor
  case group =>
    intro p own
    obtain ⟨more,readers,new⟩ := grown.noted p own
    rw [readers]
    exact grown.append (grouped.group p (grown.own p own)) new
  case shared =>
    intro p is
    obtain ⟨before,same⟩ := shared p is
    rw [same]
    exact grouped.shared p before
  case inside =>
    intro r bound
    rcases Nat.lt_or_ge r s.readers.size with old | new
    · rw [grown.old r old]
      exact Nat.lt_of_lt_of_le (grouped.inside r old) grown.pipes
    · exact grown.inside r new bound
  case pads =>
    intro i
    obtain ⟨more,inputs,new⟩ := grown.inputs i
    rw [inputs]
    exact grown.append (grouped.pads i) new
  case carried =>
    intro i p member
    rcases stage i with same | ⟨_,bare,_⟩
    · exact Nat.lt_of_lt_of_le (grouped.carried i p (same ▸ member)) grown.pipes
    · simp [bare] at member
  case linked =>
    intro i j before
    rcases stage j with same | ⟨_,_,none⟩
    · rw [same] at before
      have next := grouped.linked i j before
      rcases stage i with same | ⟨last,_⟩
      · rw [same]
        exact next
      -- The new stage was none, so nothing stood behind it.
      · have empty : s.stage i = .empty := by simp [Session.stage,last]
        rw [empty] at next
        cases next
    · rw [none] at before
      cases before
  case splits => exact splits

theorem of_leave (grouped : s.Grouped) {p : Nat} (inside : p < s.pipes.size) :
    (s.addReader p .exported).Grouped := by
  have pipes (q : Nat) := pipe_addReader s p .exported q
  have stages (i : Nat) : (s.addReader p .exported).stage i = s.stage i := by
    rw [addReader_eq]
    rfl
  refine grouped.of_grown (grown_addReader inside) (fun q shared => ?_) (fun i => .inl (stages i))
    fun q i behind => ?_
  · rw [pipes] at shared ⊢
    split
    next here =>
      rw [if_pos here,note_shared] at shared
      exact ⟨shared,by simp [note,shared]⟩
    next other =>
      rw [if_neg other] at shared
      exact ⟨shared,rfl⟩
  · have before : (s.pipe q).splitter = some i := by
      rw [pipes] at behind
      split at behind
      · rwa [note_splitter] at behind
      · exact behind
    refine (grouped.splits q i before).congr (by rw [stages]) (fun o _ => ?_) fun r bound _ resolved => ?_
    · rw [addReader_eq]
      exact ⟨rfl,rfl⟩
    · rw [reader_addReader,if_neg (Nat.ne_of_lt bound)]
      exact ⟨rfl,resolved⟩

theorem of_place (grouped : s.Grouped) {pipes : List Nat} (inside : ∀ p ∈ pipes, p < s.pipes.size) :
    (s.addChain pipes).Grouped := by
  have noted := pipe_addChain s inside
  have stages := stage_addChain s pipes
  refine grouped.of_grown (grown_addChain inside) (fun q shared => ?_) (fun i => ?_) fun q i behind => ?_
  · rw [noted,note_shared] at shared
    exact ⟨shared,by simp [noted,note,shared]⟩
  · rw [stages]
    split
    next last => exact .inr ⟨last,rfl,rfl⟩
    next => exact .inl rfl
  · rw [noted,note_splitter] at behind
    have fans := grouped.splits q i behind
    refine fans.congr ?_ (fun o _ => by rw [addChain_eq]; exact ⟨rfl,rfl⟩) fun r bound _ resolved => ?_
    · rw [stages,if_neg (Nat.ne_of_lt fans.inside)]
    · rw [reader_addChain_old s pipes r bound]
      exact ⟨rfl,resolved⟩

theorem of_attach (grouped : s.Grouped) {p : Nat} {name : String} (inside : p < s.pipes.size)
    (own : (s.pipe p).shared = false) (divides : Divider name) : (s.attach p name).Grouped := by
  have pipes (q : Nat) := pipe_attach s p name q inside
  have stages := stage_attach s p name
  refine grouped.of_grown (grown_attach name inside) (fun q shared => ?_) (fun i => ?_) fun q i behind => ?_
  · rw [pipes] at shared ⊢
    split
    next here =>
      rw [if_pos here] at shared
      change (note [s.readers.size] (s.pipe q)).shared = true at shared
      rw [note_shared,here,own] at shared
      cases shared
    next other =>
      rw [if_neg other] at shared
      exact ⟨shared,rfl⟩
  · rw [stages]
    split
    next last => exact .inr ⟨last,rfl,rfl⟩
    next => exact .inl rfl
  · rw [splitter_attach s p name q inside] at behind
    split at behind
    next here =>
      obtain rfl : s.stages.size = i := Option.some.inj behind
      refine ⟨⟨(Operation.named name).withArguments [.ofNat 0],?_,divides,rfl⟩,
        ⟨s.readers.size,by rw [stages,if_pos rfl],?_⟩,by rw [stages,if_pos rfl]; exact ⟨rfl,rfl⟩⟩
      · rw [operationAt,stages,if_pos rfl,Option.map_some,operation_attach,if_pos rfl]
      · rw [reader_attach,if_pos rfl]
        exact ⟨here.symm,rfl⟩
    next =>
      have fans := grouped.splits q i behind
      refine fans.congr ?_ (fun o bound => ?_) fun r bound _ resolved => ?_
      · rw [stages,if_neg (Nat.ne_of_lt fans.inside)]
      · rw [operation_attach,if_neg (Nat.ne_of_lt bound)]
        exact ⟨rfl,rfl⟩
      · rw [reader_attach,if_neg (Nat.ne_of_lt bound)]
        exact ⟨rfl,resolved⟩

theorem of_chains (grouped : s.Grouped) (readers : t.readers = s.readers) (pipes : t.pipes = s.pipes)
    (inputs : ∀ i, (t.stage i).inputs = (s.stage i).inputs)
    (outputs : ∀ i, (t.stage i).outputs = (s.stage i).outputs)
    (linked : ∀ i j, (t.stage j).prev = some i → (t.stage i).next = some j)
    (stage : ∀ i, s.Made i → t.stage i = s.stage i)
    (operation : ∀ o, o < s.operations.size → t.operation o = s.operation o) : t.Grouped := by
  have pipe (p : Nat) : t.pipe p = s.pipe p := by rw [Session.pipe,pipes]; rfl
  have reader (r : Nat) : t.reader r = s.reader r := by rw [Session.reader,readers]; rfl
  have lists {list : List Nat} {belongs : Reader → Prop} (listed : s.Lists list belongs) :
      t.Lists list belongs := ⟨listed.1,fun r => by rw [listed.2,readers,reader]⟩
  constructor
  case group =>
    intro p own
    rw [pipe] at own ⊢
    exact lists (grouped.group p own)
  case shared => exact fun p shared => by rw [pipe] at shared ⊢; exact grouped.shared p shared
  case inside =>
    intro r bound
    rw [readers] at bound
    rw [reader,pipes]
    exact grouped.inside r bound
  case pads =>
    intro i
    rw [inputs]
    exact lists (grouped.pads i)
  case carried =>
    intro i p member
    rw [outputs] at member
    rw [pipes]
    exact grouped.carried i p member
  case linked => exact linked
  case splits =>
    intro p i behind
    rw [pipe] at behind
    refine (grouped.splits p i behind).congr (by rw [stage i ⟨p,behind⟩]) (fun o bound => ?_)
      fun r _ _ resolved => ?_
    · rw [operation o bound]
      exact ⟨rfl,rfl⟩
    · rw [reader]
      exact ⟨rfl,resolved⟩

theorem of_hold (grouped : s.Grouped) {i : Nat} {op : Operation}
    (vacant : (s.stage i).operation = none) : (s.hold i op).Grouped := by
  have stages := stage_hold s i op
  have rest (j : Nat) : (s.hold i op).stage j =
      { s.stage j with operation := ((s.hold i op).stage j).operation } := by
    rw [stages]
    split <;> rfl
  refine grouped.of_chains rfl rfl (fun j => by rw [rest]) (fun j => by rw [rest])
    (fun j k before => ?_) (fun j made => ?_) fun o bound => ?_
  · rw [rest] at before
    rw [rest]
    exact grouped.linked j k before
  · obtain ⟨p,fans⟩ := grouped.made_fans made
    rw [stages,if_neg]
    rintro ⟨rfl,_⟩
    exact fans.holds vacant
  · rw [operation_hold,if_neg (Nat.ne_of_lt bound)]

theorem of_append (grouped : s.Grouped) {i : Nat} {op : Operation} (outer : s.OuterStage i)
    (tail : (s.stage i).next = none) : (s.append i op).Grouped := by
  have stages (j : Nat) := stage_append s i op j outer.1
  have empty : s.stage s.stages.size = .empty := by simp [Session.stage]
  have old := Nat.ne_of_lt outer.1
  refine grouped.of_chains rfl rfl (fun j => ?_) (fun j => ?_) (fun j k before => ?_) (fun j made => ?_)
    fun o bound => ?_
  · rw [stages]
    split
    next last => rw [last,empty]; rfl
    next => split <;> rfl
  · rw [stages]
    split
    next last => rw [last,empty]; rfl
    next => split <;> rfl
  · rw [stages] at before ⊢
    by_cases last : k = s.stages.size
    · rw [if_pos last] at before
      obtain rfl : i = j := Option.some.inj before
      rw [if_neg old,if_pos rfl,last]
    · have linked : (s.stage j).next = some k := by
        refine grouped.linked j k ?_
        rw [if_neg last] at before
        split at before <;> exact before
      have present : j ≠ s.stages.size := by
        rintro rfl
        rw [empty] at linked
        cases linked
      have apart : j ≠ i := by
        rintro rfl
        rw [tail] at linked
        cases linked
      rw [if_neg present,if_neg apart]
      exact linked
  · have apart : j ≠ i := fun same => outer.2 (same ▸ made)
    rw [stages,if_neg (Nat.ne_of_lt (grouped.made_inside made)),if_neg apart]
  · rw [operation_append,if_neg (Nat.ne_of_lt bound)]

theorem of_splice (grouped : s.Grouped) {a first : Nat} (outerA : s.OuterStage a)
    (outerB : s.OuterStage first) (apart : first ≠ a) (tail : (s.stage a).next = none) :
    (s.splice a first).Grouped := by
  have stages (j : Nat) := stage_splice s a first j outerA.1 apart outerB.1
  refine grouped.of_chains rfl rfl (fun j => ?_) (fun j => ?_) (fun j k before => ?_) (fun j made => ?_)
    fun _ _ => rfl
  · rw [stages]
    split
    · rfl
    · split <;> rfl
  · rw [stages]
    split
    · rfl
    · split <;> rfl
  · rw [stages] at before
    by_cases here : k = first
    · rw [here,if_neg apart,if_pos rfl] at before
      obtain rfl : a = j := Option.some.inj before
      rw [stages,if_pos rfl,here]
    · have linked : (s.stage j).next = some k := by
        refine grouped.linked j k ?_
        split at before <;> exact before
      have other : j ≠ a := by
        rintro rfl
        rw [tail] at linked
        cases linked
      rw [stages,if_neg other]
      split <;> exact linked
  · have otherA : j ≠ a := fun same => outerA.2 (same ▸ made)
    have otherB : j ≠ first := fun same => outerB.2 (same ▸ made)
    rw [stages,if_neg otherA,if_neg otherB]

theorem readers_without (grouped : s.Grouped) (r : Nat) {q : Nat} (own : (s.pipe q).shared = false) :
    (if q = (s.reader r).pipe then (s.pipe q).readers.filter (· != r) else (s.pipe q).readers) =
      (s.pipe q).readers.filter (· != r) := by
  split
  · rfl
  next other =>
    refine (List.filter_eq_self.mpr fun x member => bne_iff_ne.mpr ?_).symm
    rintro rfl
    exact other (((grouped.group q own).2 x).mp member).2.symm

theorem lists_redirect (grouped : s.Grouped) {r target q : Nat} (there : r < s.readers.size)
    (inside : target < s.pipes.size) (own : (s.pipe q).shared = false) :
    (s.redirect r target).Lists ((s.redirect r target).pipe q).readers fun reader => reader.pipe = q := by
  have count : (s.redirect r target).readers.size = s.readers.size := by simp [redirect]
  have reader := reader_redirect s r target there
  obtain ⟨once,listed⟩ := grouped.group q own
  have others (x : Nat) : x ∈ (s.pipe q).readers.filter (· != r) ↔
      x ≠ r ∧ x < s.readers.size ∧ (s.reader x).pipe = q := by
    rw [List.mem_filter,listed,bne_iff_ne,and_comm]
  rw [readers_redirect s r target q (grouped.inside r there) inside,grouped.readers_without r own]
  by_cases here : q = target
  · rw [if_pos here]
    refine ⟨List.nodup_append.mpr ⟨once.filter _,by simp,fun x member y last same => ?_⟩,fun x => ?_⟩
    · exact ((others x).mp member).1 (same.trans (List.mem_singleton.mp last))
    · rw [List.mem_append,others,List.mem_singleton,count,reader]
      by_cases same : x = r
      · simp [same,there,here]
      · simp [same]
  · rw [if_neg here,List.append_nil]
    refine ⟨once.filter _,fun x => ?_⟩
    rw [others,count,reader]
    by_cases same : x = r
    · simp [same,Ne.symm here]
    · simp [same]

theorem of_redirect (grouped : s.Grouped) {r target : Nat} (free : s.Free r)
    (inside : target < s.pipes.size) (own : (s.pipe target).shared = false) :
    (s.redirect r target).Grouped := by
  have size : (s.redirect r target).pipes.size = s.pipes.size := by simp [redirect]
  have count : (s.redirect r target).readers.size = s.readers.size := by simp [redirect]
  have reader := reader_redirect s r target free.1
  have pipe := pipe_redirect s r target
  constructor
  case group =>
    intro q alone
    rw [pipe] at alone
    exact grouped.lists_redirect free.1 inside alone
  case shared =>
    intro q is
    rw [pipe] at is
    have apart : q ≠ target := by
      rintro rfl
      rw [own] at is
      cases is
    rw [readers_redirect s r target q (grouped.inside r free.1) inside,if_neg apart,grouped.shared q is]
    simp
  case inside =>
    intro x bound
    rw [count] at bound
    rw [reader,size]
    split
    · exact inside
    · exact grouped.inside x bound
  case pads =>
    intro i
    refine ⟨(grouped.pads i).1,fun x => ?_⟩
    change x ∈ (s.stage i).inputs ↔ _
    rw [(grouped.pads i).2,count,reader]
    split <;> rfl
  case carried => exact fun i p member => size ▸ grouped.carried i p member
  case linked => exact grouped.linked
  case splits =>
    intro p i behind
    rw [pipe] at behind
    refine (grouped.splits p i behind).congr rfl (fun _ _ => ⟨rfl,rfl⟩) fun x _ member resolved => ?_
    rw [reader,if_neg (grouped.free_ne free behind member)]
    exact ⟨rfl,resolved⟩

theorem step (grouped : s.Grouped) (regroup : Regroup s t) : t.Grouped := by
  cases regroup with
  | still still => exact grouped.of_still still
  | leave _ inside => exact grouped.of_leave inside
  | place _ inside => exact grouped.of_place inside
  | hold _ _ vacant => exact grouped.of_hold vacant
  | append _ _ outer tail => exact grouped.of_append outer tail
  | splice _ _ outerA outerB apart tail => exact grouped.of_splice outerA outerB apart tail
  | attach _ _ inside own _ divides => exact grouped.of_attach inside own divides
  | redirect _ _ free inside own => exact grouped.of_redirect free inside own

theorem steps (grouped : s.Grouped) (regroups : ReflTransGen Regroup s t) : t.Grouped := by
  induction regroups with
  | refl => exact grouped
  | tail _ regroup ih => exact ih.step regroup

end Grouped

/-! What lasts. -/

structure Endures (s t : Session) : Prop where
  readers : s.readers.size ≤ t.readers.size
  owner : ∀ r, r < s.readers.size → (t.reader r).owner = (s.reader r).owner
  pipes : s.pipes.size ≤ t.pipes.size
  shared : ∀ p, p < s.pipes.size → (t.pipe p).shared = (s.pipe p).shared
  stage : ∀ i, s.OuterStage i → t.OuterStage i
  splitter : ∀ p i, (s.pipe p).splitter = some i → (t.pipe p).splitter = some i

section Lasting
variable {s t u : Session}

theorem Endures.refl (s : Session) : Endures s s :=
  ⟨Nat.le_refl _,fun _ _ => rfl,Nat.le_refl _,fun _ _ => rfl,fun _ outer => outer,fun _ _ behind => behind⟩

theorem Endures.trans (first : Endures s t) (second : Endures t u) : Endures s u where
  readers := Nat.le_trans first.readers second.readers
  owner r inside :=
    (second.owner r (Nat.lt_of_lt_of_le inside first.readers)).trans (first.owner r inside)
  pipes := Nat.le_trans first.pipes second.pipes
  shared p inside :=
    (second.shared p (Nat.lt_of_lt_of_le inside first.pipes)).trans (first.shared p inside)
  stage i outer := second.stage i (first.stage i outer)
  splitter p i behind := second.splitter p i (first.splitter p i behind)

theorem Endures.free (endures : Endures s t) {r : Nat} (free : s.Free r) : t.Free r :=
  ⟨Nat.lt_of_lt_of_le free.1 endures.readers,fun i owner =>
    endures.stage i (free.2 i ((endures.owner r free.1).symm.trans owner))⟩

theorem Endures.of_splitters (readers : s.readers.size ≤ t.readers.size)
    (owner : ∀ r, r < s.readers.size → (t.reader r).owner = (s.reader r).owner)
    (pipes : s.pipes.size ≤ t.pipes.size)
    (shared : ∀ p, p < s.pipes.size → (t.pipe p).shared = (s.pipe p).shared)
    (stages : s.stages.size ≤ t.stages.size)
    (splitter : ∀ p, (t.pipe p).splitter = (s.pipe p).splitter) : Endures s t :=
  ⟨readers,owner,pipes,shared,
    fun i outer => ⟨Nat.lt_of_lt_of_le outer.1 stages,fun made => outer.2 ((made_congr splitter i).mp made)⟩,
    fun p _ behind => (splitter p).trans behind⟩

theorem Regroup.endures (regroup : Regroup s t) : Endures s t := by
  cases regroup with
  | still still =>
    exact .of_splitters (Nat.le_of_eq still.readers.symm) (fun r _ => (still.reader r).2) still.pipes
      still.shared (Nat.le_of_eq still.stages.symm) fun p => (still.group p).2
  | leave p inside =>
    have record := addReader_eq p .exported s
    have pipes (q : Nat) := pipe_addReader s p .exported q
    refine .of_splitters (by simp [record]) (fun r bound => ?_) (by simp [record]) (fun q _ => ?_)
      (by simp [record]) fun q => ?_
    · rw [reader_addReader,if_neg (Nat.ne_of_lt bound)]
    · rw [pipes]
      split <;> simp
    · rw [pipes]
      split <;> simp
  | place pipes inside =>
    have noted := pipe_addChain s inside
    refine .of_splitters (by simp [readers_size_addChain]) (fun r bound => ?_)
      (Nat.le_of_eq (pipes_size_addChain s pipes).symm) (fun q _ => by rw [noted,note_shared])
      (by simp [addChain_eq]) fun q => by rw [noted,note_splitter]
    rw [reader_addChain_old s pipes r bound]
  | hold =>
    exact .of_splitters (Nat.le_refl _) (fun _ _ => rfl) (Nat.le_refl _) (fun _ _ => rfl)
      (by simp [Session.hold]) fun _ => rfl
  | append =>
    exact .of_splitters (Nat.le_refl _) (fun _ _ => rfl) (Nat.le_refl _) (fun _ _ => rfl)
      (by simp [Session.append]) fun _ => rfl
  | splice =>
    exact .of_splitters (Nat.le_refl _) (fun _ _ => rfl) (Nat.le_refl _) (fun _ _ => rfl)
      (by simp [Session.splice]) fun _ => rfl
  | attach p name inside own first =>
    have pipes (q : Nat) := pipe_attach s p name q inside
    refine ⟨by simp [Session.attach],fun r bound => ?_,by simp [Session.attach],fun q _ => ?_,
      fun i outer => ⟨?_,fun made => ?_⟩,fun q i behind => ?_⟩
    · rw [reader_attach,if_neg (Nat.ne_of_lt bound)]
    · rw [pipes]
      split
      · exact note_shared ..
      · rfl
    · simpa [Session.attach] using Nat.lt_succ_of_lt outer.1
    · rcases made_attach inside made with last | before
      · exact Nat.ne_of_lt outer.1 last
      · exact outer.2 before
    · rw [splitter_attach s p name q inside]
      split
      next here =>
        rw [here,first] at behind
        cases behind
      next => exact behind
  | redirect r target free =>
    have pipe := pipe_redirect s r target
    refine .of_splitters (by simp [Session.redirect]) (fun x _ => ?_) (by simp [Session.redirect])
      (fun q _ => by rw [pipe]) (Nat.le_refl _) fun q => by rw [pipe]
    rw [reader_redirect s r target free.1]
    split <;> rfl

theorem endures_of_regroups (regroups : ReflTransGen Regroup s t) : Endures s t := by
  induction regroups with
  | refl => exact .refl s
  | tail _ regroup ih => exact ih.trans regroup.endures

end Lasting
end MediaGraph.Session
