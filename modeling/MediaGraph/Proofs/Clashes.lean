import MediaGraph.Proofs.Refusals
import MediaGraph.Proofs.Titles
import MediaGraph.Proofs.Verdicts

/-! The graph never makes names clash by itself.
Exports choose names too. Whatever is split and sent through identities for them, a pipe that gets a
chosen name is the only one to have it, and no step on the way has anything else to say of names. -/
namespace MediaGraph.Session
variable {s t v : Session} {put : List (Nat × Nat)} {took : List Nat} {names : List (Nat × String)}
  {p : Nat} {name : String}

section Faults
variable {α β : Type}

/-- Names are not what it fails for. -/
def Undisputed (x : Build α) (s : Session) : Prop := ∀ fault t, x s ≠ .error (.naming fault) t

theorem undisputed_bind {x : Build α} {f : α → Build β} (first : Undisputed x s)
    (next : ∀ a t, x s = .ok a t → Undisputed (f a) t) : Undisputed (x >>= f) s := by
  intro fault t failed
  rcases bind_error.mp failed with failed | ⟨a,v,called,failed⟩
  · exact first fault t failed
  · exact next a v called fault t failed

theorem undisputed_pure (a : α) : Undisputed (pure a : Build α) s :=
  fun _ _ failed => pure_error.mp failed

theorem undisputed_get : Undisputed (get : Build Session) s := fun _ _ failed => get_error.mp failed

theorem undisputed_modify (f : Session → Session) : Undisputed (modify f : Build Unit) s :=
  fun _ _ failed => modify_error.mp failed

theorem undisputed_throw {e : GraphError} (other : ∀ fault, e ≠ .naming fault) :
    Undisputed (throw e : Build α) s :=
  fun fault _ failed => other fault (throw_error.mp failed).1.symm

theorem undisputed_choice {c : Prop} [Decidable c] {x y : Build α} (yes : c → Undisputed x s)
    (no : ¬ c → Undisputed y s) : Undisputed (if c then x else y) s := by
  split
  next holds => exact yes holds
  next fails => exact no fails

theorem undisputed_requireOpen (call : String) : Undisputed (requireOpen call) s :=
  undisputed_bind undisputed_get fun _ _ _ =>
    undisputed_choice (fun _ => undisputed_throw (by simp)) fun _ => undisputed_pure ()

theorem undisputed_pipeIndex (id : PipeId) : Undisputed (pipeIndex id) s :=
  undisputed_bind undisputed_get fun _ _ _ =>
    undisputed_choice (fun _ => undisputed_pure _) fun _ => undisputed_throw (by simp)

theorem undisputed_stageIndex (id : ChainId) : Undisputed (stageIndex id) s :=
  undisputed_bind undisputed_get fun _ _ _ =>
    undisputed_choice (fun _ => undisputed_pure _) fun _ => undisputed_throw (by simp)

theorem undisputed_pipeId (i : Nat) : Undisputed (pipeId i) s :=
  undisputed_bind undisputed_get fun _ _ _ => undisputed_pure _

theorem undisputed_chainId (i : Nat) : Undisputed (chainId i) s :=
  undisputed_bind undisputed_get fun _ _ _ => undisputed_pure _

theorem undisputed_pipeIndices (ids : List PipeId) : Undisputed (ids.mapM pipeIndex) s := by
  induction ids generalizing s with
  | nil => exact undisputed_pure _
  | cons id rest ih =>
    rw [List.mapM_cons]
    exact undisputed_bind (undisputed_pipeIndex id) fun _ _ _ =>
      undisputed_bind ih fun _ _ _ => undisputed_pure _

theorem undisputed_start (inputs : List PipeId) : Undisputed (start inputs) s :=
  undisputed_bind (undisputed_requireOpen _) fun _ _ _ =>
    undisputed_bind (undisputed_pipeIndices inputs) fun _ _ _ =>
      undisputed_bind undisputed_get fun _ _ _ =>
        undisputed_bind (undisputed_modify _) fun _ _ _ => undisputed_chainId _

theorem undisputed_outputAt (i n : Nat) : Undisputed (outputAt i n) s := by
  intro fault t failed
  obtain ⟨_,⟨_,other⟩ | ⟨_,other⟩ | ⟨_,other⟩⟩ := outputAt_error failed <;> cases other

theorem undisputed_output (chain : ChainId) (n : Nat) : Undisputed (output chain n) s := by
  refine undisputed_bind (undisputed_stageIndex chain) fun i _ _ => ?_
  refine undisputed_bind ?_ fun _ _ _ => undisputed_pipeId _
  refine undisputed_bind (undisputed_outputAt i n) fun answer _ _ => ?_
  cases answer with
  | some p => exact undisputed_pure p
  | none =>
    refine undisputed_bind undisputed_get fun _ _ _ => ?_
    split <;> exact undisputed_throw (by simp)

theorem filter_error {helper : Helper} {media : Media} {subject : String} {e : GraphError}
    (failed : helper.filter media subject = .error e) : ∃ fault, e = .missingMapping fault := by
  unfold Helper.filter at failed
  split at failed <;> cases failed <;> exact ⟨_,rfl⟩

theorem undisputed_helper (helper : Helper) (pipe : Pipe) :
    Undisputed (Session.helper helper pipe) s := by
  unfold Session.helper
  cases found : helper.filter pipe.media pipe.describe with
  | ok name => exact undisputed_pure name
  | error e =>
    obtain ⟨fault,rfl⟩ := filter_error found
    exact undisputed_throw (by simp)

theorem Blocked.undisputed {r : Nat} {fault : NamingFault} : ¬ s.Blocked r (.naming fault) := by
  rintro ⟨_,_,⟨_,kind⟩ | ⟨_,_,_,other⟩⟩
  · obtain ⟨_,other⟩ := filter_error kind
    cases other
  · cases other

theorem undisputed_resolve {r : Nat} {rest : List Nat} (kept : Ledger.Kept ⟨s,put,took,r :: rest⟩)
    (isOpen : s.completed = false) (idle : ∀ x ∈ r :: rest, (s.reader x).resolved = false) :
    Undisputed (resolve r) s :=
  fun _ _ failed => (resolve_error kept isOpen idle failed).2.undisputed

theorem undisputed_extend (kept : Ledger.Kept ⟨s,put,took,[]⟩) (isOpen : s.completed = false)
    (outer : s.OuterPipe p) :
    Undisputed (extend ⟨s.serial,s.stages.size⟩ (.named name)) (s.addChain [p]) := by
  intro fault t failed
  obtain ⟨begun,_,_,idle⟩ := begin_plains kept outer name
  have vacant := stage_addChain_one s p
  have away : ¬ (s.addChain [p]).TurnedAway ⟨s.serial,s.stages.size⟩ :=
    not_turnedAway.mpr ⟨by rw [addChain_eq]; exact isOpen,by rw [addChain_eq],
      by simp [addChain_eq],by rw [vacant]⟩
  rcases extend_error (by rw [vacant]) failed with ⟨refused,_⟩ | ⟨_,failed⟩
  · exact away refused
  rw [vacant] at failed
  obtain ⟨_,_,_,_,_,_,_,blocked⟩ := resolveAll_error (Plains.kept begun kept)
    ((Moves.completed (Plains.moves begun)).trans isOpen) (by simpa using idle) failed
  exact blocked.undisputed

theorem undisputed_mark {i : Nat} (new : p = s.pipes.size) (media : Media) :
    Undisputed (updatePipe p fun pipe => pipe.mark media) (s.addOutput i (.named name)) := by
  intro fault t failed
  have plain : ((s.addOutput i (.named name)).pipe p).media = .unknown := by
    rw [pipe_addOutput,if_pos new]
    rfl
  have refused := (updatePipe_error.mp failed).1
  rw [mark_unknown plain] at refused
  cases refused

theorem undisputed_passThrough (kept : Ledger.Kept ⟨s,put,took,[]⟩) (isOpen : s.completed = false)
    (outer : s.OuterPipe p) : Undisputed (passThrough p) s := by
  refine undisputed_bind undisputed_get fun v s' got => ?_
  obtain ⟨rfl,rfl⟩ := get_ok.mp got
  refine undisputed_bind (undisputed_helper .passThrough _) fun kind s' named => ?_
  obtain rfl := (helper_ok named).2
  refine undisputed_bind (undisputed_pipeId p) fun id s' found => ?_
  obtain ⟨rfl,rfl⟩ := pipeId_ok.mp found
  refine undisputed_bind (undisputed_start _) fun chain s' started => ?_
  obtain ⟨_,_,rfl,rfl⟩ := start_ok.mp started
  refine undisputed_bind (undisputed_extend kept isOpen outer) fun next w extended => ?_
  obtain ⟨rfl,_,through⟩ := extend_begun kept outer extended
  refine undisputed_bind (undisputed_output _ 0) fun id x asked => ?_
  obtain ⟨rfl,number⟩ := firstOutput_ok through asked
  refine undisputed_bind undisputed_get fun v s' got => ?_
  obtain ⟨rfl,rfl⟩ := get_ok.mp got
  exact undisputed_bind (undisputed_mark number _) fun _ _ _ => undisputed_pure _

theorem undisputed_rename (free : (s.pipe p).fixed = false) :
    Undisputed (updatePipe p fun pipe => pipe.rename name) s := by
  intro fault t failed
  have refused := (updatePipe_error.mp failed).1
  simp [Pipe.rename,free] at refused

theorem passThrough_free {out : Nat} (kept : Ledger.Kept ⟨s,put,took,[]⟩) (outer : s.OuterPipe p)
    (called : passThrough p s = .ok out t) : (t.pipe out).fixed = false := by
  obtain ⟨kind,w,_,media,_,_,number,rfl,_,rfl⟩ := passThrough_opened kept outer called
  refine (congrArg Pipe.fixed (pipe_modifyPipe ..)).trans ?_
  have new : ((w.addOutput s.stages.size (.named kind)).pipe out).fixed = false := by
    rw [pipe_addOutput,if_pos number]
    rfl
  split <;> exact new

theorem undisputed_exportTarget (kept : Ledger.Kept ⟨s,put,took,[]⟩) (isOpen : s.completed = false)
    (outer : s.OuterPipe p) : Undisputed (exportTarget name p) s := by
  refine undisputed_bind undisputed_get fun v s' got => ?_
  obtain ⟨rfl,rfl⟩ := get_ok.mp got
  refine undisputed_choice (fun _ => undisputed_pure _) fun _ => ?_
  refine undisputed_choice (fun _ => ?_) fun free => ?_
  · refine undisputed_bind (undisputed_passThrough kept isOpen outer) fun out w passed => ?_
    exact undisputed_bind (undisputed_rename (passThrough_free kept outer passed))
      fun _ _ _ => undisputed_pure _
  · exact undisputed_bind (undisputed_rename (by simpa using free)) fun _ _ _ => undisputed_pure _

theorem undisputed_exportPipe {id : PipeId} (kept : Ledger.Kept ⟨s,put,took,[]⟩)
    (isOpen : s.completed = false) (outer : id.session = s.serial → s.OuterPipe id.index) :
    Undisputed (exportPipe name id) s := by
  refine undisputed_bind (undisputed_pipeIndex id) fun q s' found => ?_
  obtain ⟨own,_,rfl,rfl⟩ := pipeIndex_ok.mp found
  refine undisputed_bind (undisputed_exportTarget kept isOpen (outer own)) fun target v aimed => ?_
  obtain ⟨more,_,moves,_,known,_⟩ := exportTarget_ok kept (outer own) aimed
  refine undisputed_bind undisputed_get fun _ w got => ?_
  obtain ⟨rfl,rfl⟩ := get_ok.mp got
  refine undisputed_bind (undisputed_modify _) fun _ x added => ?_
  obtain rfl := modify_ok.mp added
  have left := Closing.leave w (put ++ more) (took ++ more.map (·.1)) target known.1 known.2
  refine undisputed_resolve (left.kept (Moves.kept moves kept)) ?_ fun x member => ?_
  · rw [addReader_eq]
    exact (Moves.completed moves).trans isOpen
  · rw [List.mem_singleton.mp member,reader_addReader,if_pos rfl]

end Faults

section Exports
variable {target : Nat}

theorem exportTarget_unique (kept : Ledger.Kept ⟨s,put,took,[]⟩) (outer : s.OuterPipe p)
    (labelled : Labelled s names) (unique : s.Unique) (chosen : ¬ Generated name)
    (unnamed : ∀ r, (r,name) ∉ names)
    (free : ∀ q, q < s.pipes.size → (s.pipe q).name = name → q = p)
    (called : exportTarget name p s = .ok target v) :
    v.Unique ∧ ∀ q, q < v.pipes.size → ¬ Generated (v.pipe q).name → (v.pipe q).name ≠ name →
      Inherits s v names q := by
  simp only [exportTarget,bind_ok,get_ok,choice_ok,pure_ok,and_assoc,exists_and_left,
    exists_eq_left] at called
  rcases called with ⟨_,rfl,rfl⟩ | ⟨other,⟨_,out,w,passed,_,x,renamed,rfl,rfl⟩ | ⟨_,_,x,renamed,rfl,rfl⟩⟩
  · exact ⟨unique,fun q inside _ _ => .inl ⟨inside,rfl⟩⟩
  · obtain ⟨plains,_,_,known,_⟩ := passThrough_ok kept outer passed
    have tidy := Plains.tidy plains kept labelled
    obtain ⟨_,rfl⟩ := renamePipe_ok renamed
    have pipes (q : Nat) : (w.retitle target name).pipe q = _ := pipe_modifyPipe ..
    have size : (w.retitle target name).pipes.size = w.pipes.size := Array.size_modify
    have vacant (q : Nat) (inside : q < w.pipes.size) : (w.pipe q).name ≠ name := by
      intro same
      rcases tidy.origin q inside (same ▸ chosen) with ⟨before,had⟩ | ⟨r,listed⟩
      · have equal := had.trans same
        exact other (free q before equal ▸ equal)
      · exact unnamed r (same ▸ listed)
    refine ⟨(tidy.unique unique).retitle known.1 chosen fun q inside same =>
      absurd same (vacant q inside),fun q inside made apart => ?_⟩
    rw [pipes] at made apart
    rw [Inherits,pipes]
    split at made
    next both => simp [both,known.1] at apart
    next both =>
      rw [if_neg both]
      exact tidy.origin q (size ▸ inside) made
  · obtain ⟨_,rfl⟩ := renamePipe_ok renamed
    have pipes (q : Nat) : (s.retitle target name).pipe q = _ := pipe_modifyPipe ..
    have size : (s.retitle target name).pipes.size = s.pipes.size := Array.size_modify
    refine ⟨unique.retitle outer.1 chosen free,fun q inside made apart => ?_⟩
    rw [pipes] at made apart
    rw [Inherits,pipes]
    split at made
    next both => simp [both,outer.1] at apart
    next both =>
      rw [if_neg both]
      exact .inl ⟨size ▸ inside,rfl⟩

theorem exportPipe_unique {id : PipeId} {u : Unit} (kept : Ledger.Kept ⟨s,put,took,[]⟩)
    (outer : s.OuterPipe id.index) (labelled : Labelled s names) (unique : s.Unique)
    (chosen : ¬ Generated name) (unnamed : ∀ r, (r,name) ∉ names)
    (free : ∀ q, q < s.pipes.size → (s.pipe q).name = name → q = id.index)
    (called : exportPipe name id s = .ok u t) :
    t.Unique ∧ t.completed = s.completed ∧ ∃ e, Labelled t (names ++ [(e,name)]) ∧
      ∀ q, q < t.pipes.size → ¬ Generated (t.pipe q).name → (t.pipe q).name ≠ name →
        Inherits s t names q := by
  obtain ⟨target,v,more,aimed,_,_,moves,_,known,title,fixed,_,resolved⟩ :=
    exportPipe_opened kept outer called
  obtain ⟨uniqueV,originV⟩ := exportTarget_unique kept outer labelled unique chosen unnamed free aimed
  have keptV := Moves.kept moves kept
  let w := v.addReader target .exported
  have left := Closing.leave v (put ++ more) (took ++ more.map (·.1)) target known.1 known.2
  have keptW := left.kept keptV
  have idle (x : Nat) (member : x ∈ [v.readers.size]) : (w.reader x).resolved = false := by
    rw [List.mem_singleton.mp member,reader_addReader,if_pos rfl]
  obtain ⟨turns,_⟩ := resolve_ok keptW idle resolved
  have settled : (v.pipe target).fixed = true := by
    cases now : (v.pipe target).fixed with
    | true => rfl
    | false => exact absurd (fixed now) chosen
  have labelledW := (Moves.labelled moves kept labelled).of_leave ⟨title,settled⟩ unnamed
  have sameW (q : Nat) : (w.pipe q).name = (v.pipe q).name := by
    rw [pipe_addReader]
    split
    · rw [note_name]
    · rfl
  have size : w.pipes.size = v.pipes.size := by simp [w,addReader_eq]
  have renames : Renames v w := .keep size (by simp [w,addReader_eq]) sameW
  have tidy := Plains.tidy (Turns.plains turns) keptW labelledW
  have completed : w.completed = v.completed := by simp [w,addReader_eq]
  refine ⟨tidy.unique (renames.unique uniqueV),
    (Moves.completed (Turns.moves turns)).trans (completed.trans (Moves.completed moves)),
    v.readers.size,Moves.labelled (Turns.moves turns) keptW labelledW,fun q inside made apart => ?_⟩
  rcases tidy.origin q inside made with ⟨before,same⟩ | ⟨r,listed⟩
  · rw [← same,sameW] at made apart
    rw [Inherits,← same,sameW]
    exact originV q (size ▸ before) made apart
  · rcases List.mem_append.mp listed with old | last
    · exact .inr ⟨r,old⟩
    · simp only [List.mem_singleton,Prod.mk.injEq] at last
      exact absurd last.2 apart

/-- The exports that are left choose different names, and who has one of them is the pipe to leave
under it. -/
structure Ready (s : Session) (names : List (Nat × String)) (rest : List (String × PipeId)) : Prop where
  isOpen : s.completed = false
  unique : s.Unique
  labelled : Labelled s names
  chosen : ∀ entry ∈ rest, ¬ Generated entry.1
  distinct : (rest.map (·.1)).Nodup
  unnamed : ∀ entry ∈ rest, ∀ r, (r,entry.1) ∉ names
  free : ∀ entry ∈ rest, ∀ q, q < s.pipes.size → (s.pipe q).name = entry.1 → q = entry.2.index

theorem Ready.after {id : PipeId} {rest : List (String × PipeId)} {u : Unit}
    (ready : Ready s names ((name,id) :: rest)) (kept : Ledger.Kept ⟨s,put,took,[]⟩)
    (outer : s.OuterPipe id.index) (called : exportPipe name id s = .ok u t) :
    ∃ names', Ready t names' rest := by
  have head : (name,id) ∈ (name,id) :: rest := List.mem_cons_self
  have tail (entry : String × PipeId) (member : entry ∈ rest) : entry ∈ (name,id) :: rest :=
    List.mem_cons_of_mem _ member
  obtain ⟨unique,completed,e,labelled,origin⟩ := exportPipe_unique kept outer ready.labelled ready.unique
    (ready.chosen _ head) (ready.unnamed _ head) (ready.free _ head) called
  have distinct := List.nodup_cons.mp ready.distinct
  have apart (entry : String × PipeId) (member : entry ∈ rest) : entry.1 ≠ name :=
    fun same => distinct.1 (same ▸ List.mem_map.mpr ⟨entry,member,rfl⟩)
  refine ⟨_,completed.trans ready.isOpen,unique,labelled,
    fun entry member => ready.chosen entry (tail entry member),distinct.2,
    fun entry member r listed => ?_,fun entry member q inside same => ?_⟩
  · rcases List.mem_append.mp listed with old | last
    · exact ready.unnamed entry (tail entry member) r old
    · simp only [List.mem_singleton,Prod.mk.injEq] at last
      exact apart entry member last.2
  · rcases origin q inside (same ▸ ready.chosen entry (tail entry member))
      (same ▸ apart entry member) with ⟨before,had⟩ | ⟨r,listed⟩
    · exact ready.free entry (tail entry member) q before (had.trans same)
    · exact absurd (same ▸ listed) (ready.unnamed entry (tail entry member) r)

theorem exportAll_unique {exports : List (String × PipeId)} (ready : Ready s names exports)
    (kept : Ledger.Kept ⟨s,put,took,[]⟩)
    (outer : ∀ entry ∈ exports, entry.2.session = s.serial → s.OuterPipe entry.2.index) :
    Undisputed (exportAll exports) s ∧ ∀ u t, exportAll exports s = .ok u t → t.Unique := by
  induction exports generalizing s put took names with
  | nil =>
    refine ⟨undisputed_pure (),fun u t called => ?_⟩
    obtain ⟨_,rfl⟩ := pure_ok.mp called
    exact ready.unique
  | cons entry rest ih =>
    obtain ⟨name,id⟩ := entry
    have first := @undisputed_exportPipe s put took name id kept ready.isOpen (outer (name,id) (by simp))
    have next (u : Unit) (v : Session) (called : exportPipe name id s = .ok u v) :
        Undisputed (exportAll rest) v ∧ ∀ u t, exportAll rest v = .ok u t → t.Unique := by
      obtain ⟨_,_,found,_⟩ := bind_ok.mp called
      have known := outer (name,id) (by simp) (pipeIndex_ok.mp found).1
      obtain ⟨_,readyV⟩ := ready.after kept known called
      obtain ⟨closings,_⟩ := exportPipe_ok kept known called
      have later := Closings.later closings kept
      refine ih readyV (Closings.kept closings kept) fun other member own => ?_
      exact later.pipe _ (outer other (List.mem_cons_of_mem _ member) (own.trans later.serial))
    refine ⟨undisputed_bind first fun u v called => (next u v called).1,fun u t called => ?_⟩
    obtain ⟨u,v,exported,called⟩ := bind_ok.mp called
    exact (next u v exported).2 _ t called

theorem Unique.validate (unique : s.Unique) {fault : NamingFault} :
    s.validate ≠ .error (.naming fault) := by
  intro refused
  unfold Session.validate at refused
  cases clash : nameClash [] s.pipes.toList with
  | some pair =>
    obtain ⟨first,second⟩ := pair
    obtain ⟨p,q,before,inside,_,_,_,_,same⟩ := clash_pipes clash
    exact Nat.ne_of_lt before (unique.distinct p q (Nat.lt_trans before inside) inside same)
  | none =>
    cases loose : dangling s.pipes.toList <;> simp [clash,loose] at refused

end Exports

open Account

/-- Exports choose names of their own, but a pipe may leave under the name that was chosen for it. -/
structure Separate (list : List Title) (exports : List (String × PipeId)) : Prop where
  names : ∀ entry ∈ exports, ¬ Generated entry.1
  distinct : (exports.map (·.1)).Nodup
  own : ∀ title ∈ list, ∀ entry ∈ exports, title.name = entry.1 → title.pipe = entry.2

/-- Where callers choose different names, and none that the graph could make up, completing a graph
never fails for a name. Handles of other sessions are refused for what they are. -/
theorem complete_undisputed {catalog : Catalog} {events : List Event} {a : Account}
    {exports : List (String × PipeId)} (trace : Trace catalog events a) (chosen : Chosen (titles events))
    (apart : Separate (titles events) exports)
    (given : ∀ entry ∈ exports, entry.2.session = a.session.serial → entry.2 ∈ a.pipes)
    (fault : NamingFault) (t : Session) : complete exports a.session ≠ .error (.naming fault) t := by
  have consistent := trace.reached.consistent
  cases closed : a.session.completed with
  | true =>
    intro failed
    simp [complete,bind_error,requireOpen,get_error,get_ok,choice_error,choice_ok,throw_error,throw_ok,
      pure_error,pure_ok,closed] at failed
  | false =>
    have titled := trace.titled closed chosen
    have ready : Ready a.session [] exports := by
      refine ⟨closed,titled.unique,consistent.enclosed closed,apart.names,apart.distinct,by simp,
        fun entry member q inside same => ?_⟩
      obtain ⟨title,listed,name,index⟩ := titled.owned q inside (same ▸ apart.names entry member)
      rw [← index,apart.own title listed entry member (name.trans same)]
    obtain ⟨first,last⟩ := exportAll_unique ready consistent.kept fun entry member own =>
      (consistent.issued.pipe entry.2 (given entry member own)).2
    refine undisputed_bind (undisputed_requireOpen _) (fun _ s called => ?_) fault t
    obtain ⟨_,rfl⟩ := requireOpen_ok.mp called
    refine undisputed_bind first fun u v exported => ?_
    refine undisputed_bind undisputed_get fun _ w got => ?_
    obtain ⟨rfl,rfl⟩ := get_ok.mp got
    cases checked : w.validate with
    | ok => exact undisputed_modify _
    | error e => exact undisputed_throw fun fault same => (last u w exported).validate (same ▸ checked)

def titledSource : List ((reply : Reply) × Call reply) :=
  [⟨_,.namedPipe "x"⟩,⟨_,.start []⟩,⟨_,.extend ⟨0,0⟩ (.named "testsrc")⟩,
    ⟨_,.connect ⟨0,0⟩ [⟨0,0⟩]⟩,⟨_,.setMedia ⟨0,0⟩ .video⟩,⟨_,.inputStream "0:v"⟩,
    ⟨_,.inputStream "0:v"⟩,⟨_,.start [⟨0,1⟩]⟩,⟨_,.extend ⟨0,1⟩ (.named "hflip")⟩,
    ⟨_,.output ⟨0,1⟩ 0⟩,⟨_,.rename ⟨0,2⟩ "y"⟩,⟨_,.setMedia ⟨0,2⟩ .video⟩]

def titledExports : List (String × PipeId) :=
  [("x",⟨0,0⟩),("z",⟨0,0⟩),("0:v",⟨0,1⟩),("w",⟨0,2⟩),("y",⟨0,2⟩),("v",⟨0,2⟩)]

theorem complete_undisputed_sixfold : ∃ a t, run? titledSource (.new 0 .empty) = some a ∧
    complete titledExports a.session = .ok () t ∧
    ∀ fault t, complete titledExports a.session ≠ .error (.naming fault) t := by
  have runs : (run? titledSource (.new 0 .empty)).any (fun a =>
      decide (∀ entry ∈ titledExports, entry.2.session = a.session.serial → entry.2 ∈ a.pipes) &&
        succeeds (complete titledExports) a.session fun _ _ => true) = true := by decide +kernel
  have named : titles (history titledSource (.new 0 .empty)) =
      [⟨"x",⟨0,0⟩,false⟩,⟨"0:v",⟨0,1⟩,true⟩,⟨"0:v",⟨0,1⟩,true⟩,⟨"y",⟨0,2⟩,false⟩] := by decide +kernel
  obtain ⟨a,ran,facts⟩ := (Option.any_eq_true ..).mp runs
  simp only [Bool.and_eq_true,decide_eq_true_eq] at facts
  obtain ⟨_,t,completed,_⟩ := ok_of_succeeds facts.2
  have trace : Trace .empty ([] ++ history titledSource (.new 0 .empty)) a := (Trace.new 0).run ran
  have chosen : Chosen (titles ([] ++ history titledSource (.new 0 .empty))) := by
    rw [List.nil_append,named]
    exact ⟨fun title member => not_generated_of_head (by revert title; decide),by decide⟩
  have apart : Separate (titles ([] ++ history titledSource (.new 0 .empty))) titledExports := by
    rw [List.nil_append,named]
    exact ⟨fun entry member => not_generated_of_head (by revert entry; decide),by decide,by decide⟩
  exact ⟨a,t,ran,completed,complete_undisputed trace chosen apart facts.1⟩

end MediaGraph.Session
