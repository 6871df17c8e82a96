import MediaGraph.Proofs.Holders

/-! The groups of readers mirror where the readers point.
Readers move between pipes while splits are put behind them, and a call may fail in the middle of that.
Whatever callers try, each pipe of its own lists just the readers that point at it. -/
namespace MediaGraph
namespace Session

/-- How many readers point at a pipe now. -/
def readersOn (s : Session) (p : Nat) : Nat :=
  (List.range s.readers.size).countP fun r => (s.reader r).pipe == p

/-- Each reader of a pipe that is not shared is on the list of that pipe once, and on no other list. A
stage that is recorded as the split of a pipe is one, and is that of no other pipe. -/
structure Mirrors (s : Session) : Prop where
  inside : ∀ r, r < s.readers.size → (s.reader r).pipe < s.pipes.size
  once : ∀ r, r < s.readers.size → (s.pipe (s.reader r).pipe).shared = false →
    (s.pipe (s.reader r).pipe).readers.count r = 1
  nothingElse : ∀ p r, r ∈ (s.pipe p).readers → r < s.readers.size ∧ (s.reader r).pipe = p
  shared : ∀ p, (s.pipe p).shared = true → (s.pipe p).readers = []
  counted : ∀ id : PipeId, id.session = s.serial → id.index < s.pipes.size →
    countReaders id s =
      .ok (if (s.pipe id.index).shared = true then 0 else s.readersOn id.index) s
  splits : ∀ p i, (s.pipe p).splitter = some i → s.FansOut i p
  apart : ∀ p q i, (s.pipe p).splitter = some i → (s.pipe q).splitter = some i → p = q

section Groups
variable {s : Session} {p : Nat}

theorem Grouped.length_readers (grouped : s.Grouped) (own : (s.pipe p).shared = false) :
    (s.pipe p).readers.length = s.readersOn p := by
  obtain ⟨once,listed⟩ := grouped.group p own
  have same : (s.pipe p).readers.Perm
      ((List.range s.readers.size).filter fun r => (s.reader r).pipe == p) :=
    (List.perm_ext_iff_of_nodup once (List.nodup_range.filter _)).mpr fun r => by simp [listed]
  rw [readersOn,List.countP_eq_length_filter,same.length_eq]

theorem countReaders_ok {id : PipeId} (own : id.session = s.serial) (inside : id.index < s.pipes.size) :
    countReaders id s = .ok (s.pipe id.index).readers.length s := by
  have found : lookUp id s = .ok (s.pipe id.index) s :=
    bind_ok.mpr ⟨id.index,s,pipeIndex_ok.mpr ⟨own,inside,rfl,rfl⟩,
      bind_ok.mpr ⟨s,s,get_ok.mpr ⟨rfl,rfl⟩,pure_ok.mpr ⟨rfl,rfl⟩⟩⟩
  exact bind_ok.mpr ⟨_,s,found,pure_ok.mpr ⟨rfl,rfl⟩⟩

theorem Grouped.mirrors (grouped : s.Grouped) : s.Mirrors where
  inside := grouped.inside
  once r bound own :=
    have ⟨once,listed⟩ := grouped.group _ own
    List.count_eq_one_of_mem once ((listed r).mpr ⟨bound,rfl⟩)
  nothingElse p r member := by
    cases is : (s.pipe p).shared with
    | false => exact ((grouped.group p is).2 r).mp member
    | true => simp [grouped.shared p is] at member
  shared := grouped.shared
  counted id own inside := by
    rw [countReaders_ok own inside]
    split
    next is => rw [grouped.shared _ is,List.length_nil]
    next not => rw [grouped.length_readers (Bool.eq_false_iff.mpr not)]
  splits := grouped.splits
  apart _ _ _ first second := grouped.pipe_unique first second

end Groups
end Session

namespace Holder
open Session
variable {catalog : Catalog} {h : Holder}

/-- Whatever callers try with the handles that they were given, failures included, the groups of their
session mirror its readers. -/
theorem groups_mirror (tried : Tried catalog h) : h.session.Mirrors := tried.orderly.grouped.mirrors

/-- Entry points and concatenations are runs of such calls, so they keep the groups right as well. -/
theorem Composed.mirrors {α : Type} {good : α → Holder → Prop} {x : Build α}
    (composed : Composed catalog good x h) : (leaves x h.session).Mirrors := by
  obtain ⟨k,tried,_,same,_⟩ := composed
  exact same ▸ tried.orderly.grouped.mirrors

theorem invoke_mirrors {name : String} {inputs : List PipeId} {args : List Argument}
    (tried : Tried catalog h) (known : inputs ⊆ h.pipes)
    (heeds : ∀ entry, h.session.catalog.entry? name = some entry → Heeds h (entry inputs args)) :
    (leaves (invoke name inputs args) h.session).Mirrors :=
  (invoke_composed tried known heeds).mirrors

theorem finalize_mirrors {c : Concat} (tried : Tried catalog h) (known : c.streams.flatten ⊆ h.pipes)
    (answered : c.outputs.getD [] ⊆ h.pipes) : (leaves c.finalize h.session).Mirrors :=
  (finalize_composed tried known answered).mirrors

def readTwice : List ((reply : Reply) × Call reply) :=
  [⟨_,.start []⟩,⟨_,.extend ⟨0,0⟩ (.named "testsrc")⟩,⟨_,.output ⟨0,0⟩ 0⟩,⟨_,.setMedia ⟨0,0⟩ .video⟩,
    ⟨_,.start []⟩,⟨_,.extend ⟨0,1⟩ (.named "testsrc")⟩,⟨_,.output ⟨0,1⟩ 0⟩,
    ⟨_,.start [⟨0,0⟩]⟩,⟨_,.extend ⟨0,2⟩ (.named "hflip")⟩,
    ⟨_,.start [⟨0,1⟩]⟩,⟨_,.extend ⟨0,3⟩ (.named "vflip")⟩,⟨_,.start [⟨0,0⟩,⟨0,1⟩]⟩]

/-- The chain gets a split behind the first pipe and fails at the second one, on whose list its reader
stays. -/
theorem groups_mirror_halfway : ∃ h e t, attempt? readTwice (.new 0 .empty) = some h ∧
    perform (.extend ⟨0,4⟩ (.named "overlay")) h.session = .error e t ∧ t.Mirrors ∧
    (t.pipe 0).splitter = some 5 ∧ (t.reader 2).pipe = 3 ∧ (t.pipe 3).readers = [2] ∧
    (t.pipe 1).splitter = none ∧ (t.pipe 1).readers = [1,3] ∧ t.readersOn 1 = 2 := by
  let c := Call.extend ⟨0,4⟩ (.named "overlay")
  have runs : (attempt? readTwice (.new 0 .empty)).any (fun h =>
      match perform c h.session with
      | .ok _ _ => false
      | .error _ t => decide (h.Knows c ∧ (t.pipe 0).splitter = some 5 ∧ (t.reader 2).pipe = 3 ∧
          (t.pipe 3).readers = [2] ∧ (t.pipe 1).splitter = none ∧ (t.pipe 1).readers = [1,3] ∧
          t.readersOn 1 = 2)) = true := by decide +kernel
  obtain ⟨h,went,facts⟩ := (Option.any_eq_true ..).mp runs
  split at facts
  next => cases facts
  next e t failed =>
    obtain ⟨known,facts⟩ := of_decide_eq_true facts
    have mirrors := groups_mirror (((Tried.new 0).attempt went).call c known)
    rw [after_error failed] at mirrors
    exact ⟨h,e,t,went,failed,mirrors,facts⟩

end Holder
end MediaGraph
