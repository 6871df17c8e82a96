import MediaGraph.Concat
import MediaGraph.Proofs.Arguments
import Mathlib.Data.Fintype.EquivFin
import Mathlib.Data.List.Perm.Basic

/-! Concatenations before they are placed.
Columns and rows can be added in any mixture. A call that fails leaves what was there,
and after every call all streams have a pipe in each segment. The pads of the filter
number the streams anew: the video streams first, each kind in its order. -/
namespace MediaGraph.Concat

/-! What stands against a column or a row. -/

def streamFault (c : Concat) (pipes : List PipeId) : Option ShapeFault :=
  if c.outputs.isSome then some .concatFinished
  else if pipes.isEmpty then some .emptyStream
  else if c.segments.any (· != pipes.length) then
    some (.streamLength pipes.length c.segmentCount)
  else none

def segmentFault (c : Concat) (pipes : List PipeId) : Option ShapeFault :=
  if c.outputs.isSome then some .concatFinished
  else if pipes.isEmpty then some .emptySegment
  else if !c.streams.isEmpty && pipes.length != c.streams.length then
    some (.segmentWidth pipes.length c.streams.length)
  else none

def withStream (c : Concat) (pipes : List PipeId) : Concat :=
  { c with streams := c.streams ++ [pipes], segments := some pipes.length }

/-- The streams that a row is put behind. The first row begins them. -/
def columns (c : Concat) (pipes : List PipeId) : List (List PipeId) :=
  if c.streams.isEmpty then List.replicate pipes.length [] else c.streams

def withSegment (c : Concat) (pipes : List PipeId) : Concat :=
  { c with
    streams := (c.columns pipes).zipWith (fun stream p => stream ++ [p]) pipes
    segments := some (c.segmentCount + 1) }

section Calls
variable {c d : Concat} {pipes : List PipeId} {e : GraphError} {u : Unit}

/-! A call looks at the concatenation first, and changes it last. -/

theorem get_then {α : Type} (f : Concat → EStateM GraphError Concat α) : (get >>= f) c = f c c := rfl

theorem throw_then {α β : Type} (f : α → EStateM GraphError Concat β) :
    ((throw e : EStateM GraphError Concat α) >>= f) c = .error e c := rfl

theorem modify_then {α : Type} (g : Concat → Concat) (f : Unit → EStateM GraphError Concat α) :
    (modify g >>= f) c = f () (g c) := rfl

theorem modify_run (g : Concat → Concat) :
    (modify g : EStateM GraphError Concat Unit) c = .ok () (g c) := rfl

theorem putStream_eq (c : Concat) (pipes : List PipeId) :
    putStream pipes c =
      match c.streamFault pipes with
      | some fault => .error (.structural fault) c
      | none => .ok () (c.withStream pipes) := by
  unfold putStream requireUnfinished streamFault
  by_cases finished : c.outputs.isSome = true
  · simp only [bind_assoc,get_then,throw_then,finished,if_true]
  by_cases empty : pipes.isEmpty = true
  · simp only [bind_assoc,get_then,throw_then,pure_bind,finished,empty,if_true,if_false,
      Bool.false_eq_true]
  by_cases uneven : c.segments.any (· != pipes.length) = true
  · simp only [bind_assoc,get_then,throw_then,pure_bind,finished,empty,uneven,if_true,if_false,
      Bool.false_eq_true]
  · simp only [bind_assoc,get_then,modify_then,modify_run,pure_bind,finished,empty,uneven,
      if_false,Bool.false_eq_true]
    rfl

theorem putSegment_eq (c : Concat) (pipes : List PipeId) :
    putSegment pipes c =
      match c.segmentFault pipes with
      | some fault => .error (.structural fault) c
      | none => .ok () (c.withSegment pipes) := by
  unfold putSegment requireUnfinished segmentFault withSegment columns
  by_cases finished : c.outputs.isSome = true
  · simp only [bind_assoc,get_then,throw_then,finished,if_true]
  by_cases empty : pipes.isEmpty = true
  · simp only [bind_assoc,get_then,throw_then,pure_bind,finished,empty,if_true,if_false,
      Bool.false_eq_true]
  by_cases first : c.streams.isEmpty = true
  · simp only [bind_assoc,get_then,modify_then,modify_run,pure_bind,finished,empty,first,if_true,
      if_false,Bool.false_eq_true,Bool.not_true,Bool.false_and]
    rfl
  by_cases uneven : (pipes.length != c.streams.length) = true
  · simp only [bind_assoc,get_then,throw_then,pure_bind,finished,empty,first,uneven,if_true,
      if_false,Bool.false_eq_true,Bool.not_false,Bool.true_and]
  · simp only [bind_assoc,get_then,modify_then,modify_run,pure_bind,finished,empty,first,uneven,
      if_false,Bool.false_eq_true,Bool.not_false,Bool.true_and]
    rfl

theorem putStream_ok :
    putStream pipes c = .ok u d ↔ c.streamFault pipes = none ∧ d = c.withStream pipes := by
  rw [putStream_eq]
  cases c.streamFault pipes <;> simp [eq_comm]

theorem putSegment_ok :
    putSegment pipes c = .ok u d ↔ c.segmentFault pipes = none ∧ d = c.withSegment pipes := by
  rw [putSegment_eq]
  cases c.segmentFault pipes <;> simp [eq_comm]

theorem putStream_error (failed : putStream pipes c = .error e d) : d = c := by
  rw [putStream_eq] at failed
  split at failed <;> cases failed
  rfl

theorem putSegment_error (failed : putSegment pipes c = .error e d) : d = c := by
  rw [putSegment_eq] at failed
  split at failed <;> cases failed
  rfl

end Calls

section Even
variable {c d : Concat} {pipes : List PipeId}

/-- All streams have a pipe in each segment, and there are segments from the first call
on that adds something. -/
structure Even (c : Concat) : Prop where
  even : ∀ stream ∈ c.streams, stream.length = c.segmentCount
  begun : c.streams = [] ↔ c.segments = none
  unfinished : c.outputs = none

def cell (c : Concat) (s g : Nat) : Option PipeId := c.streams[s]?.bind (·[g]?)

structure ColumnAdded (pipes : List PipeId) (c d : Concat) : Prop where
  streams : d.streamCount = c.streamCount + 1
  segments : d.segmentCount = pipes.length
  cell : ∀ s g, d.cell s g = if s = c.streamCount then pipes[g]? else c.cell s g
  outputs : d.outputs = none

/-- The streams go on for one more segment, in which there is one pipe for each. -/
structure RowAdded (pipes : List PipeId) (c d : Concat) : Prop where
  streams : d.streamCount = pipes.length
  segments : d.segmentCount = c.segmentCount + 1
  cell : ∀ s g, d.cell s g = if g = c.segmentCount then pipes[s]? else c.cell s g
  outputs : d.outputs = none

theorem Even.of_empty : Even .empty where
  even := by simp [empty]
  begun := by simp [empty]
  unfinished := rfl

theorem Even.withStream (holds : Even c) (free : c.streamFault pipes = none) :
    Even (c.withStream pipes) where
  even := by
    intro stream member
    rcases List.mem_append.mp member with old | new
    · have count : c.segments.any (· != pipes.length) = false := by
        unfold streamFault at free
        grind
      cases before : c.segments with
      | none => simp [holds.begun.mpr before] at old
      | some n =>
        rw [holds.even stream old]
        simpa [segmentCount,Concat.withStream,before] using count
    · rw [List.mem_singleton.mp new]
      rfl
  begun := by simp [Concat.withStream]
  unfinished := holds.unfinished

theorem Even.columns (even : Even c) (free : c.segmentFault pipes = none) :
    (c.columns pipes).length = pipes.length ∧
      (∀ column ∈ c.columns pipes, column.length = c.segmentCount) ∧
      ∀ s g : Nat, (c.columns pipes)[s]?.bind (·[g]?) = c.cell s g := by
  by_cases first : c.streams = []
  · have bare : c.columns pipes = List.replicate pipes.length [] := by simp [Concat.columns,first]
    rw [bare]
    refine ⟨List.length_replicate,fun column member => ?_,fun s g => ?_⟩
    · simp [List.eq_of_mem_replicate member,segmentCount,even.begun.mp first]
    · rw [List.getElem?_replicate]
      split <;> simp [cell,first]
  · have same : c.columns pipes = c.streams := by simp [Concat.columns,first]
    rw [same]
    refine ⟨?_,even.even,fun _ _ => rfl⟩
    unfold segmentFault at free
    grind

theorem Even.withSegment (even : Even c) (free : c.segmentFault pipes = none) :
    Even (c.withSegment pipes) where
  even := by
    intro stream member
    rw [Concat.withSegment,← List.map_uncurry_zip_eq_zipWith] at member
    obtain ⟨⟨column,p⟩,zipped,rfl⟩ := List.mem_map.mp member
    simp [(even.columns free).2.1 column (List.of_mem_zip zipped).1,segmentCount,Concat.withSegment]
  begun := by
    have filled : pipes ≠ [] := by
      unfold segmentFault at free
      grind
    have wide : c.columns pipes ≠ [] := by
      rw [← List.length_pos_iff,(even.columns free).1]
      exact List.length_pos_iff.mpr filled
    simp [Concat.withSegment,filled,wide]
  unfinished := even.unfinished

theorem getElem?_snoc {α : Type} (list : List α) (last : α) (k : Nat) :
    (list ++ [last])[k]? = if k = list.length then some last else list[k]? := by
  rcases Nat.lt_trichotomy k list.length with before | rfl | after
  · rw [List.getElem?_append_left before,if_neg (Nat.ne_of_lt before)]
  · rw [List.getElem?_concat_length,if_pos rfl]
  · rw [if_neg (Nat.ne_of_gt after),List.getElem?_eq_none (Nat.le_of_lt after),
      List.getElem?_eq_none (by simpa using Nat.succ_le_of_lt after)]

theorem Even.columnAdded (even : Even c) : ColumnAdded pipes c (c.withStream pipes) where
  streams := by simp [Concat.withStream,streamCount]
  segments := rfl
  cell := by
    intro s g
    rw [cell,Concat.withStream,getElem?_snoc,streamCount]
    split <;> rfl
  outputs := even.unfinished

theorem Even.rowAdded (even : Even c) (free : c.segmentFault pipes = none) :
    RowAdded pipes c (c.withSegment pipes) := by
  obtain ⟨wide,full,same⟩ := even.columns free
  constructor
  case streams => simp [streamCount,Concat.withSegment,wide]
  case segments => rfl
  case outputs => exact even.unfinished
  case cell =>
    intro s g
    rw [← same,Concat.cell,Concat.withSegment,List.getElem?_zipWith]
    rcases Nat.lt_or_ge s pipes.length with inside | past
    · have length := full _ (List.getElem_mem (wide ▸ inside))
      rw [List.getElem?_eq_getElem (wide ▸ inside),List.getElem?_eq_getElem inside,← length]
      exact getElem?_snoc ..
    · simp [List.getElem?_eq_none past,List.getElem?_eq_none (wide ▸ past)]

/-- What a call leaves, failed or not. -/
def left (c : Concat) (call : Assembly Unit) : Concat :=
  match call c with
  | .ok _ d => d
  | .error _ d => d

/-- The concatenations that columns and rows come to, whichever of the calls fail. -/
inductive Assembled : Concat → Prop
  | empty : Assembled .empty
  | stream {c : Concat} (pipes : List PipeId) (before : Assembled c) :
      Assembled (c.left (putStream pipes))
  | segment {c : Concat} (pipes : List PipeId) (before : Assembled c) :
      Assembled (c.left (putSegment pipes))

theorem Assembled.even (assembled : Assembled c) : Even c := by
  induction assembled with
  | empty => exact .of_empty
  | @stream c pipes _ ih =>
    rw [left,putStream_eq]
    cases free : c.streamFault pipes with
    | some fault => exact ih
    | none => exact ih.withStream free
  | @segment c pipes _ ih =>
    rw [left,putSegment_eq]
    cases free : c.segmentFault pipes with
    | some fault => exact ih
    | none => exact ih.withSegment free

theorem Even.place (even : Even c) {s g : Nat} (column : s < c.streams.length)
    (row : g < c.segmentCount) : ∃ p, c.cell s g = some p := by
  have inside : g < c.streams[s].length := by
    rw [even.even _ (List.getElem_mem column)]
    exact row
  exact ⟨_,by rw [cell,List.getElem?_eq_getElem column,Option.bind_some,List.getElem?_eq_getElem inside]⟩

end Even

section Order
variable {media : List Media} {s t : Nat}

theorem padOrder_perm (media : List Media) :
    (padOrder media).Perm (List.range media.length) :=
  List.filter_append_perm ..

theorem padOrder_length (media : List Media) : (padOrder media).length = media.length := by
  simpa using (padOrder_perm media).length_eq

theorem mem_padOrder : s ∈ padOrder media ↔ s < media.length := by
  simp [(padOrder_perm media).mem_iff]

/-- One stream stands before another on the pads. -/
def Ahead (media : List Media) (s t : Nat) : Prop :=
  (media[s]? = some .video ∧ media[t]? ≠ some .video) ∨
    ((media[s]? = some .video ↔ media[t]? = some .video) ∧ s < t)

theorem Ahead.asymm (ahead : Ahead media s t) : ¬ Ahead media t s := by
  unfold Ahead at *
  grind

theorem padOrder_ahead (media : List Media) : (padOrder media).Pairwise (Ahead media) := by
  have ascending (keep : Nat → Bool) :
      ((List.range media.length).filter keep).Pairwise (· < ·) :=
    List.Pairwise.filter keep List.pairwise_lt_range
  refine List.pairwise_append.mpr ⟨?_,?_,?_⟩
  · refine (ascending _).imp_of_mem fun first second before => .inr ⟨?_,before⟩
    simp only [List.mem_filter,decide_eq_true_eq] at first second
    exact iff_of_true first.2 second.2
  · refine (ascending _).imp_of_mem fun first second before => .inr ⟨?_,before⟩
    simp only [List.mem_filter,Bool.not_eq_true',decide_eq_false_iff_not] at first second
    exact iff_of_false first.2 second.2
  · intro s first t second
    simp only [List.mem_filter,Bool.not_eq_true',decide_eq_true_eq,decide_eq_false_iff_not]
      at first second
    exact .inl ⟨first.2,second.2⟩

def padOf (media : List Media) (s : Nat) : Nat := (padOrder media).idxOf s

theorem padOf_lt (inside : s < media.length) : padOf media s < media.length := by
  have listed := List.idxOf_lt_length_of_mem (mem_padOrder.mpr inside)
  rwa [padOrder_length] at listed

theorem padOrder_padOf (inside : s < media.length) :
    (padOrder media)[padOf media s]? = some s := by
  have bound := List.idxOf_lt_length_of_mem (mem_padOrder.mpr inside)
  rw [padOf,List.getElem?_eq_getElem bound,List.getElem_idxOf bound]

theorem padOf_injective (inside : s < media.length) (also : t < media.length)
    (same : padOf media s = padOf media t) : s = t := by
  have first := padOrder_padOf inside
  rw [same,padOrder_padOf also] at first
  exact (Option.some.inj first).symm

theorem padOf_ahead (inside : s < media.length) (also : t < media.length)
    (ahead : Ahead media s t) : padOf media s < padOf media t := by
  rcases Nat.lt_trichotomy (padOf media s) (padOf media t) with before | same | after
  · exact before
  · obtain rfl := padOf_injective inside also same
    exact absurd ahead ahead.asymm
  · have pairs := List.pairwise_iff_getElem.mp (padOrder_ahead media) _ _
      (List.idxOf_lt_length_of_mem (mem_padOrder.mpr also))
      (List.idxOf_lt_length_of_mem (mem_padOrder.mpr inside)) after
    rw [List.getElem_idxOf,List.getElem_idxOf] at pairs
    exact absurd pairs ahead.asymm

noncomputable def padding {k : Nat} (size : k = media.length) : Equiv.Perm (Fin k) :=
  let place (s : Fin k) : Fin k := ⟨padOf media s,
    Nat.lt_of_lt_of_eq (padOf_lt (size ▸ s.isLt)) size.symm⟩
  have apart : Function.Injective place := fun s t same =>
    Fin.ext (padOf_injective (size ▸ s.isLt) (size ▸ t.isLt) (congrArg Fin.val same))
  Equiv.ofBijective place (Finite.injective_iff_bijective.mp apart)

theorem padding_val {k : Nat} (size : k = media.length) (s : Fin k) :
    (padding size s).val = padOf media s := rfl

end Order

section Grid
variable {c : Concat} {media : List Media}

theorem filterMap_getElem? {α β : Type} {list : List α} {f : α → Option β}
    (total : ∀ x ∈ list, (f x).isSome) (j : Nat) :
    (list.filterMap f)[j]? = list[j]?.bind f := by
  induction list generalizing j with
  | nil => simp
  | cons x rest ih =>
    obtain ⟨first,later⟩ := List.forall_mem_cons.mp total
    obtain ⟨y,found⟩ := Option.isSome_iff_exists.mp first
    rw [List.filterMap_cons_some found]
    cases j with
    | zero => simp [found]
    | succ j => simpa using ih later j

theorem flatMap_range_getElem? {α : Type} {row : Nat → List α} {width n : Nat}
    (even : ∀ g, g < n → (row g).length = width) :
    ((List.range n).flatMap row).length = n * width ∧
      ∀ g j, g < n → j < width → ((List.range n).flatMap row)[g * width + j]? = (row g)[j]? := by
  induction n with
  | zero => simp
  | succ n ih =>
    obtain ⟨size,found⟩ := ih fun g before => even g (by omega)
    have last := even n (by omega)
    rw [List.range_succ,List.flatMap_append,List.flatMap_singleton]
    refine ⟨by rw [List.length_append,size,last,Nat.succ_mul],fun g j inside pad => ?_⟩
    rcases Nat.lt_or_ge g n with before | after
    · have bound : g * width + j < n * width := by
        have next : (g + 1) * width ≤ n * width := Nat.mul_le_mul_right width before
        rw [Nat.succ_mul] at next
        omega
      rw [List.getElem?_append_left (size ▸ bound),found g j before pad]
    · obtain rfl : g = n := by omega
      rw [List.getElem?_append_right (by rw [size]; exact Nat.le_add_right ..),size,
        Nat.add_sub_cancel_left]

theorem row_total (even : Even c) (kinds : media.length = c.streamCount) {g : Nat}
    (row : g < c.segmentCount) :
    ∀ s ∈ padOrder media, (c.cell s g).isSome := by
  intro s listed
  have column : s < c.streams.length := by
    rw [← streamCount,← kinds]
    exact mem_padOrder.mp listed
  obtain ⟨p,found⟩ := even.place column row
  rw [found]
  rfl

theorem inputs_rows (even : Even c) (kinds : media.length = c.streamCount) :
    (c.inputs (padOrder media)).length = c.segmentCount * media.length ∧
      ∀ g j, g < c.segmentCount → j < media.length →
        (c.inputs (padOrder media))[g * media.length + j]? =
          (padOrder media)[j]?.bind fun s => c.cell s g := by
  have rows (g : Nat) (row : g < c.segmentCount) :
      ((padOrder media).filterMap fun s => c.cell s g).length = media.length := by
    rw [List.length_filterMap_eq_countP,← padOrder_length media]
    exact List.countP_eq_length.mpr (row_total even kinds row)
  obtain ⟨size,found⟩ := flatMap_range_getElem? rows
  refine ⟨size,fun g j row pad => (found g j row pad).trans ?_⟩
  exact filterMap_getElem? (row_total even kinds row) j

theorem inputs_getElem? (even : Even c) (kinds : media.length = c.streamCount) {s g : Nat}
    (column : s < media.length) (row : g < c.segmentCount) :
    (c.inputs (padOrder media))[g * media.length + padOf media s]? = c.cell s g := by
  rw [(inputs_rows even kinds).2 g _ row (padOf_lt column),padOrder_padOf column,Option.bind_some]

theorem byStream_rows {pads : List PipeId} (full : pads.length = media.length) :
    (byStream (padOrder media) pads).length = media.length ∧
      ∀ s, s < media.length → (byStream (padOrder media) pads)[s]? = pads[padOf media s]? := by
  have total : ∀ s ∈ List.range (padOrder media).length,
      (pads[(padOrder media).idxOf s]?).isSome := by
    intro s listed
    rw [padOrder_length,List.mem_range] at listed
    have bound := padOf_lt listed
    rw [List.getElem?_eq_getElem (by rw [full]; exact bound)]
    rfl
  constructor
  · rw [byStream,List.length_filterMap_eq_countP,List.countP_eq_length.mpr total,List.length_range,
      padOrder_length]
  · intro s inside
    rw [byStream,filterMap_getElem? total,padOrder_length,List.getElem?_range inside,
      Option.bind_some]
    rfl

theorem operation_args (n : Nat) (order : List Nat) :
    (operation n media order).args =
      "n=" ++ toString n ++ ":v=" ++ toString (media.count .video) ++ ":a=" ++
        toString (media.length - media.count .video) := by
  apply String.toList_inj.mp
  simp [operation,Operation.withOutputs,Operation.withArguments,Argument.encode,Argument.parts,
    Argument.keyedPart,Argument.escape_digits,Text.join]

theorem operation_media (n : Nat) {s : Nat} (inside : s < media.length) :
    media[s]? = some ((operation n media (padOrder media)).outputs.media (padOf media s)) := by
  have total : ∀ x ∈ padOrder media, (media[x]?).isSome := by
    intro x listed
    rw [List.getElem?_eq_getElem (mem_padOrder.mp listed)]
    rfl
  change _ = some ((((padOrder media).filterMap fun s => media[s]?)[padOf media s]?).getD .unknown)
  rw [filterMap_getElem? total,padOrder_padOf inside,Option.bind_some,
    List.getElem?_eq_getElem inside,Option.getD_some]

theorem count_kinds (settled : ∀ kind ∈ media, kind = .video ∨ kind = .audio) :
    media.count .video + media.count .audio = media.length := by
  induction media with
  | nil => rfl
  | cons kind rest ih =>
    obtain ⟨first,later⟩ := List.forall_mem_cons.mp settled
    have tail := ih later
    rcases first with rfl | rfl <;> simp <;> omega

end Grid
end MediaGraph.Concat
