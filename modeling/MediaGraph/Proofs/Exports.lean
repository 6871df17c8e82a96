import MediaGraph.Proofs.Consumers
import MediaGraph.Proofs.WellFormed

/-! Where exports are found in a completed graph.
Every entry of the list has a reader that leaves the graph, either put on the pipe of
the entry or behind an identity on it. Its name stays with it whatever the later entries
do. -/
namespace MediaGraph.Session

/-- The export of a pipe has its reader, on the pipe or behind an identity on it. -/
def Served (base s : Session) (put : List (Nat × Nat)) (names : List (Nat × String))
    (name : String) (p : Nat) : Prop :=
  ∃ e, (e,name) ∈ names ∧
    ((e,p) ∈ put ∨ ∃ out r, (e,out) ∈ put ∧ (∀ x, (x,out) ∈ put → x = e) ∧ (r,p) ∈ put ∧
      base.pipes.size ≤ out ∧ Passes base s r out)

/-- How far an export list is, after the entries in `done`. -/
structure Progress (base s : Session) (put : List (Nat × Nat)) (done : List (String × PipeId))
    (names : List (Nat × String)) : Prop where
  pipes : base.pipes.size ≤ s.pipes.size
  stages : base.stages.size ≤ s.stages.size
  labelled : Labelled s names
  named : ∀ r name, (r,name) ∈ names → name ∈ done.map (·.1)
  served : ∀ entry ∈ done, Served base s put names entry.1 entry.2.index

section Entries
variable {base s t : Session} {put : List (Nat × Nat)} {took : List Nat} {u : Unit}
  {done : List (String × PipeId)} {names : List (Nat × String)}

theorem Progress.step (progress : Progress base s put done names)
    (kept : Ledger.Kept ⟨s,put,took,[]⟩) {name : String} {id : PipeId}
    (outer : s.OuterPipe id.index) (early : id.index < base.pipes.size)
    (chosen : ¬ Generated name) (fresh : name ∉ done.map (·.1))
    (called : exportPipe name id s = .ok u t) :
    ∃ names', Progress base t (put ++ exportReaders name id.index s) (done ++ [(name,id)]) names' := by
  obtain ⟨closings,steady,e,target,more,readers,place,label⟩ := exportPipe_ok kept outer called
  have later := Closings.later closings kept
  have grown := progress.pipes
  have unnamed (r : Nat) : (r,name) ∉ names := fun listed => fresh (progress.named r name listed)
  -- Readers are added on pipes of the list and on new pipes only.
  have added (x q : Nat) (member : (x,q) ∈ more ++ [(e,target)]) :
      q = id.index ∨ (x = e ∧ q = target ∧ s.pipes.size ≤ q) := by
    rcases place with ⟨rfl,rfl⟩ | ⟨r,rfl,new,_⟩
    · simp only [List.nil_append,List.mem_singleton,Prod.mk.injEq] at member
      exact .inl member.2
    · simp only [List.cons_append,List.nil_append,List.mem_cons,Prod.mk.injEq,List.not_mem_nil,
        or_false] at member
      rcases member with ⟨_,same⟩ | ⟨same,rfl⟩
      · exact .inl same
      · exact .inr ⟨same,rfl,new⟩
  refine ⟨names ++ [(e,name)],Nat.le_trans grown steady.pipes,
    Nat.le_trans progress.stages steady.stages,label names progress.labelled chosen unnamed,
    fun r other listed => ?_,fun entry member => ?_⟩
  · rcases List.mem_append.mp listed with before | last
    · rw [List.map_append]
      exact List.mem_append_left _ (progress.named r other before)
    · simp only [List.mem_singleton,Prod.mk.injEq] at last
      simp [last.2]
  · rw [readers]
    rcases List.mem_append.mp member with before | last
    · obtain ⟨f,listed,how⟩ := progress.served entry before
      refine ⟨f,by simp [listed],?_⟩
      rcases how with direct | ⟨out,r,placed,only,source,new,i,o,kind,low,kinds,through⟩
      · exact .inl (by simp [direct])
      · refine .inr ⟨out,r,by simp [placed],fun x listed => ?_,by simp [source],new,i,o,kind,low,
          kinds,through.later steady later⟩
        rcases List.mem_append.mp listed with old | extra
        · exact only x old
        · have inside : out < s.pipes.size := (kept.2.placed f out placed).2.1
          rcases added x out extra with same | ⟨_,_,outside⟩ <;> omega
    · obtain rfl := List.mem_singleton.mp last
      refine ⟨e,by simp,?_⟩
      rcases place with ⟨rfl,same⟩ | ⟨r,rfl,new,i,o,kind,low,kinds,through⟩
      · exact .inl (by simp [same])
      · refine .inr ⟨target,r,by simp,fun x listed => ?_,by simp,by omega,i,o,kind,
          Nat.le_trans progress.stages low,kinds,through⟩
        rcases List.mem_append.mp listed with old | extra
        · have inside : target < s.pipes.size := (kept.2.placed x target old).2.1
          omega
        · rcases added x target extra with same | ⟨same,_⟩
          · omega
          · exact same

theorem exportAll_progress {exports : List (String × PipeId)}
    (progress : Progress base s put done names) (kept : Ledger.Kept ⟨s,put,took,[]⟩)
    (outer : ∀ entry ∈ exports, s.OuterPipe entry.2.index ∧ entry.2.index < base.pipes.size)
    (chosen : ∀ entry ∈ exports, ¬ Generated entry.1)
    (distinct : ((done ++ exports).map (·.1)).Nodup) (called : exportAll exports s = .ok u t) :
    ∃ names', Progress base t (put ++ exportsReaders exports s) (done ++ exports) names' := by
  induction exports generalizing s put took done names with
  | nil =>
    obtain ⟨_,rfl⟩ := pure_ok.mp called
    exact ⟨names,by simpa [exportsReaders] using progress⟩
  | cons entry rest ih =>
    obtain ⟨name,id⟩ := entry
    obtain ⟨_,v,exported,called⟩ := bind_ok.mp called
    obtain ⟨known,early⟩ := outer (name,id) (by simp)
    have fresh : name ∉ done.map (·.1) := by
      rw [List.map_append,List.nodup_append] at distinct
      exact fun member => distinct.2.2 name member name (by simp) rfl
    obtain ⟨names',next⟩ := progress.step kept known early (chosen (name,id) (by simp)) fresh exported
    obtain ⟨first,_⟩ := exportPipe_ok kept known exported
    have later := Closings.later first kept
    rw [show done ++ (name,id) :: rest = done ++ [(name,id)] ++ rest by simp] at distinct ⊢
    rw [exportsReaders,exported,← List.append_assoc]
    refine ih next (Closings.kept first kept) (fun other member => ?_)
      (fun other member => chosen other (by simp [member])) distinct called
    obtain ⟨known,early⟩ := outer other (by simp [member])
    exact ⟨later.pipe _ known,early⟩

end Entries

/-- What comes along with pipe `p`: the pipe, or an output of the split behind it. -/
def Supplies (s : Session) (p q : Nat) : Prop :=
  q = p ∨ ∃ i, s.Behind i p ∧ q ∈ (s.stage i).outputs

/-- Pipe `q` shows what pipe `p` carries, at most through an operation that changes
nothing and was not there in `s`. -/
def Carries (s t : Session) (p q : Nat) : Prop :=
  t.Supplies p q ∨ ∃ i o r name, s.stages.size ≤ i ∧ (name = "null" ∨ name = "anull") ∧
    t.stage i = ⟨some o,[r],#[q],none,none⟩ ∧ t.operation o = .named name ∧
    t.Supplies p (t.reader r).pipe

/-- The output pads with a name that no operation reads. -/
def leaving (s : Session) (name : String) : List Nat :=
  s.outputPads.filter fun p => (s.pipe p).name = name ∧ p ∉ s.inputPads

section Completed
open Account
variable {base : Session} {a : Account} {names : List (Nat × String)}

theorem supplies_of_consumer (consistent : a.Consistent) {p r : Nat} (member : r ∈ a.consumersOf p) :
    a.session.Supplies p (a.session.reader r).pipe := by
  have kept := consistent.kept
  cases behind : (a.session.pipe p).splitter with
  | none => exact .inl (consumers_whole kept behind r member).2.2
  | some i =>
    refine .inr ⟨i,(behind_iff kept).mpr behind,?_⟩
    rw [← Array.mem_toList_iff,← consumers_split kept behind]
    exact List.mem_map.mpr ⟨r,member,rfl⟩

theorem carries_of_served (consistent : a.Consistent) (labelled : Labelled a.session names)
    {name : String} {p : Nat} (served : Served base a.session a.put names name p) :
    ∃ e, (e,name) ∈ names ∧ Carries base a.session p (a.session.reader e).pipe ∧
      ((a.session.pipe (a.session.reader e).pipe).shared = true →
        (a.session.reader e).pipe = p) := by
  have kept := consistent.kept
  obtain ⟨e,listed,how⟩ := served
  have bound := labelled.inside e name listed
  have active : a.session.Active e := by
    rw [Active,(labelled.exported e bound).mpr ⟨name,listed⟩]
    trivial
  have branchOwn (i q : Nat) (member : q ∈ (a.session.stage i).outputs) :
      (a.session.pipe q).shared = false := kept.1.feeding.own i q member
  refine ⟨e,listed,?_⟩
  rcases how with placed | ⟨out,r,placed,only,source,_,i,o,kind,fresh,kinds,through⟩
  · have supplies := supplies_of_consumer consistent ((mem_consumersOf kept).mpr ⟨placed,active⟩)
    refine ⟨.inl supplies,fun shared => ?_⟩
    rcases supplies with same | ⟨i,_,member⟩
    · exact same
    · exact absurd shared (by simp [branchOwn i _ member])
  · have fed : out ∈ (a.session.stage i).outputs := by simp [through.pads]
    have consumer : e ∈ a.consumersOf out := (mem_consumersOf kept).mpr ⟨placed,active⟩
    have single : a.consumersOf out = [e] := by
      have once := (consistent.distributed out).once
      have all (x : Nat) (member : x ∈ a.consumersOf out) : x = e :=
        only x ((mem_consumersOf kept).mp member).1
      rcases found : a.consumersOf out with _ | ⟨x,_ | ⟨y,rest⟩⟩
      · simp [found] at consumer
      · rw [all x (by simp [found])]
      · have same := (all x (by simp [found])).trans (all y (by simp [found])).symm
        simp [found,same] at once
    have reads := (((consistent.distributed out).one (branchOwn i out fed) e single).1 e).mpr rfl
    rw [reads.2.2]
    refine ⟨.inr ⟨i,o,r,kind,fresh,kinds,through.pads,through.held,?_⟩,fun shared => ?_⟩
    · refine supplies_of_consumer consistent ((mem_consumersOf kept).mpr ⟨source,?_⟩)
      have owner := ((kept.1.reading.pads i r).mp (by simp [through.pads])).2
      rw [Active,owner]
      simp [through.pads]
    · exact absurd shared (by simp [branchOwn i out fed])

theorem leaving_eq (sound : Sound a.session []) (checked : a.session.Checked)
    (labelled : Labelled a.session names) {e : Nat} {name : String} (listed : (e,name) ∈ names)
    (own : (a.session.pipe (a.session.reader e).pipe).shared = false) :
    a.session.leaving name = [(a.session.reader e).pipe] := by
  have bound := labelled.inside e name listed
  have owner := (labelled.exported e bound).mpr ⟨name,listed⟩
  have leaves : (a.session.reader e).pipe ∈ a.session.exportPads :=
    List.mem_map_of_mem (List.mem_filter.mpr ⟨List.mem_range.mpr bound,by simpa using owner⟩)
  have taken := taken_of_mem sound own (List.mem_append_right _ leaves)
  obtain ⟨i,fed⟩ := sound.feeding.feeder _ ((checked.ends _ own).trans taken) own
  have pad := (mem_outputPads sound).mpr ⟨i,fed⟩
  have wellFormed := checked.wellFormed sound
  have unread : (a.session.reader e).pipe ∉ a.session.inputPads := by
    have one := readers_count sound own taken
    have some := List.count_pos_iff.mpr leaves
    exact List.count_eq_zero.mp (by omega)
  refine filter_eq_singleton (outputPads_nodup sound) fun q => ?_
  simp only [decide_eq_true_eq]
  constructor
  · rintro ⟨member,called,_⟩
    exact wellFormed.names q (by simp [member]) _ (by simp [pad])
      (called.trans (labelled.called e name listed).1.symm)
  · rintro rfl
    exact ⟨pad,(labelled.called e name listed).1,unread⟩

theorem named_of_unread (sound : Sound a.session []) (checked : a.session.Checked)
    (labelled : Labelled a.session names) {p : Nat} (pad : p ∈ a.session.outputPads)
    (unread : p ∉ a.session.inputPads) : ∃ e, (e,(a.session.pipe p).name) ∈ names := by
  obtain ⟨i,fed⟩ := (mem_outputPads sound).mp pad
  have own := sound.feeding.own i p fed
  have taken := (checked.ends p own).symm.trans (sound.feeding.fed i p fed)
  have one := readers_count sound own taken
  rw [List.count_eq_zero.mpr unread] at one
  obtain ⟨r,leaves,rfl⟩ := List.mem_map.mp (List.count_pos_iff.mp (by omega : 0 < a.session.exportPads.count p))
  obtain ⟨inside,owner⟩ := List.mem_filter.mp leaves
  obtain ⟨name,listed⟩ := (labelled.exported r (List.mem_range.mp inside)).mp (by simpa using owner)
  exact ⟨r,(labelled.called r name listed).1.symm ▸ listed⟩

theorem Served.close {s : Session} {put : List (Nat × Nat)} {name : String} {p : Nat}
    (served : Served base s put names name p) : Served base s.close put names name p := by
  obtain ⟨e,listed,how⟩ := served
  refine ⟨e,listed,?_⟩
  rcases how with placed | ⟨out,r,placed,only,source,new,i,o,kind,fresh,kinds,through⟩
  · exact .inl placed
  · exact .inr ⟨out,r,placed,only,source,new,i,o,kind,fresh,kinds,through.stage,through.operation,
      through.pads,through.held⟩

/-- Names that are chosen and differ end up on one output pad each, which carries what was
to be exported under them; and nothing else leaves the graph. Only an input stream that
already has its name is exported as it is. -/
theorem complete_exports {catalog : Catalog} {exports : List (String × PipeId)} {t : Session}
    (reached : Reached catalog a) (known : a.Knows (.complete exports))
    (distinct : (exports.map (·.1)).Nodup) (chosen : ∀ entry ∈ exports, ¬ Generated entry.1)
    (completed : complete exports a.session = .ok () t) :
    (∀ entry ∈ exports,
      ¬ ((a.session.pipe entry.2.index).shared = true ∧
        (a.session.pipe entry.2.index).name = entry.1) →
      ∃ q, t.leaving entry.1 = [q] ∧ Carries a.session t entry.2.index q) ∧
    ∀ p ∈ t.outputPads, p ∉ t.inputPads → (t.pipe p).name ∈ exports.map (·.1) := by
  have before := reached.consistent
  have after := before.after (c := .complete exports) known completed
  obtain ⟨isOpen,v,exported,valid,rfl⟩ := complete_ok.mp completed
  have outer (entry : String × PipeId) (member : entry ∈ exports) :
      a.session.OuterPipe entry.2.index :=
    ((known.issued before).pipe entry.2 (List.mem_map_of_mem member)).2
  have begun : Progress a.session a.session a.put [] [] :=
    ⟨Nat.le_refl _,Nat.le_refl _,before.enclosed isOpen,by simp,by simp⟩
  obtain ⟨names,progress⟩ := exportAll_progress begun before.kept
    (fun entry member => ⟨outer entry member,(outer entry member).1⟩) chosen (by simpa using distinct)
    exported
  have closings := exportAll_closings before.kept outer exported
  have checked : v.close.Checked := ⟨(validate_ok valid).names,(validate_ok valid).ends⟩
  have labelled : Labelled v.close names :=
    progress.labelled.of_pipes rfl fun _ fixed => ⟨rfl,fixed⟩
  refine ⟨fun entry member apart => ?_,fun p pad unread => ?_⟩
  · have served := (progress.served entry (by simpa using member)).close
    obtain ⟨e,listed,carries,whole⟩ := carries_of_served after labelled served
    have own : (v.close.pipe (v.close.reader e).pipe).shared = false := by
      refine Bool.eq_false_iff.mpr fun shared => ?_
      have same : (v.close.reader e).pipe = entry.2.index := whole shared
      have called := (labelled.called e entry.1 listed).1
      have streamed := closings.streamed before.kept (outer entry member)
      rw [same] at shared called
      have stream := streamed.shared.symm.trans shared
      exact apart ⟨stream,(streamed.name stream).symm.trans called⟩
    exact ⟨_,leaving_eq after.kept.1 checked labelled listed own,carries⟩
  · obtain ⟨e,listed⟩ := named_of_unread after.kept.1 checked labelled pad unread
    exact progress.named e _ listed

theorem complete_exports_twice : ∃ a t, run? scaledSource (.new 0 .empty) = some a ∧
    complete [("a",⟨0,1⟩),("b",⟨0,1⟩)] a.session = .ok () t ∧
    (∀ entry ∈ [("a",(⟨0,1⟩ : PipeId)),("b",⟨0,1⟩)],
      ¬ ((a.session.pipe entry.2.index).shared = true ∧
        (a.session.pipe entry.2.index).name = entry.1) →
      ∃ q, t.leaving entry.1 = [q] ∧ Carries a.session t entry.2.index q) ∧
    ∀ p ∈ t.outputPads, p ∉ t.inputPads →
      (t.pipe p).name ∈ [("a",(⟨0,1⟩ : PipeId)),("b",⟨0,1⟩)].map (·.1) := by
  obtain ⟨a,t,before,known,completed⟩ := scaledSource_completes
  have chosen : ∀ entry ∈ [("a",(⟨0,1⟩ : PipeId)),("b",⟨0,1⟩)], ¬ Generated entry.1 := by
    rintro entry member ⟨k,same⟩
    have first := congrArg (fun text => text.toList.head?) same
    rcases List.mem_cons.mp member with rfl | last
    · simp at first
    · rw [List.mem_singleton.mp last] at first
      simp at first
  exact ⟨a,t,before,completed,
    complete_exports ((Reached.new 0).run before) known (by decide) chosen completed⟩

end Completed

end MediaGraph.Session
