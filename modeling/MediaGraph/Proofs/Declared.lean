import MediaGraph.Proofs.Aside
import MediaGraph.Proofs.Growth
import MediaGraph.Proofs.Titles

/-! The pads that operations declare.
Outputs are only made for pads that an operation has, and carry the media that it declares for them.
This holds of a stage as long as the caller puts no pipes on its pads. -/
namespace MediaGraph
namespace Session

def padsAt (s : Session) (i : Nat) : Option Pads := (s.operationAt i).map (·.outputs)

/-- The outputs of a stage lie on declared pads and carry what is declared for them. -/
def Declared (s : Session) (i : Nat) : Prop :=
  ∀ pads, s.padsAt i = some pads → ∀ n p : Nat, (s.stage i).outputs[n]? = some p →
    pads.lacks n = false ∧ (pads.media n ≠ .unknown → (s.pipe p).media = pads.media n)

def DeclaredFrom (s : Session) (i start : Nat) : Prop :=
  ∀ pads, s.padsAt i = some pads → ∀ n p : Nat, start ≤ n → (s.stage i).outputs[n]? = some p →
    pads.lacks n = false ∧ (pads.media n ≠ .unknown → (s.pipe p).media = pads.media n)

theorem declared_iff {s : Session} {i : Nat} : s.Declared i ↔ s.DeclaredFrom i 0 := by
  simp [Declared,DeclaredFrom]

section Steps
variable {s t : Session} {i start : Nat}

theorem DeclaredFrom.of_same (declared : s.DeclaredFrom i start)
    (outputs : (t.stage i).outputs = (s.stage i).outputs) (pads : t.padsAt i = s.padsAt i)
    (coloured : Coloured s t) : t.DeclaredFrom i start := by
  intro shape held n p past found
  obtain ⟨there,media⟩ := declared shape (pads ▸ held) n p past (outputs ▸ found)
  refine ⟨there,fun known => ?_⟩
  rw [coloured p (by rw [media known]; exact known),media known]

theorem DeclaredFrom.of_bare (bare : (s.stage i).outputs = #[]) : s.DeclaredFrom i start := by
  intro _ _ n p _ found
  simp [bare] at found

theorem DeclaredFrom.of_dynamic (dynamic : s.padsAt i = some .dynamic) : s.DeclaredFrom i start := by
  intro pads held n p _ _
  obtain rfl : pads = .dynamic := Option.some.inj (held.symm.trans dynamic)
  exact ⟨rfl,fun known => absurd rfl known⟩

theorem padsAt_congr (operation : (t.stage i).operation = (s.stage i).operation)
    (outputs : ∀ o, (s.stage i).operation = some o → (t.operation o).outputs = (s.operation o).outputs) :
    t.padsAt i = s.padsAt i := by
  cases held : (s.stage i).operation with
  | none => simp [padsAt,operationAt,operation,held]
  | some o => simp [padsAt,operationAt,operation,held,outputs o held]

theorem Turn.declaredFrom {l m : Ledger} (turn : Turn l m) (sound : Sound l.session l.pending)
    (declared : l.session.DeclaredFrom i start) : m.session.DeclaredFrom i start := by
  have coloured := turn.coloured sound
  cases turn with
  | take => exact declared.of_same rfl rfl coloured
  | attach s _ _ r _ d name =>
    have stages := stage_attach s (s.reader r).pipe name i
    by_cases new : i = s.stages.size
    · refine .of_bare ?_
      rw [stages,if_pos new]
    · rw [if_neg new] at stages
      refine declared.of_same (by rw [stages]) (padsAt_congr (by rw [stages]) fun o held => ?_) coloured
      rw [operation_attach,if_neg (Nat.ne_of_lt (sound.holding.inside i o held))]
  | move s _ _ r _ j o behind holds =>
    have stages := stage_moveTo s j o r i (inside_of_holds (by simp [holds]))
    have operations (k : Nat) := operation_moveTo s j o r k (sound.holding.inside j o holds)
    have pads : (s.moveTo j o r).padsAt i = s.padsAt i := by
      refine padsAt_congr ?_ fun k _ => ?_
      · rw [stages]
        split <;> rfl
      · rw [operations]
        split <;> rfl
    by_cases here : i = j
    -- The split gets an output that nobody asked for, but it declares none.
    · obtain ⟨k,_,duplicates⟩ := sound.splitting _ j behind
      refine .of_dynamic (pads.trans ?_)
      rw [here,padsAt,operationAt,duplicates.holds]
      exact congrArg some (congrArg Operation.outputs duplicates.operation)
    · exact declared.of_same (by rw [stages,if_neg here]) pads coloured

theorem DeclaredFrom.of_output {op : Operation} (declared : s.DeclaredFrom i start)
    (inside : i < s.stages.size) (holds : s.operationAt i = some op)
    (coloured : Coloured s (s.addOutput i op))
    (more : op.outputs.lacks (s.stage i).outputs.size = false) :
    (s.addOutput i op).DeclaredFrom i start := by
  have stages := stage_addOutput s i op i inside
  rw [if_pos rfl] at stages
  have pads : (s.addOutput i op).padsAt i = s.padsAt i :=
    padsAt_congr (by rw [stages]) fun _ _ => rfl
  intro shape held n p past found
  rw [stages] at found
  rcases Nat.lt_trichotomy n (s.stage i).outputs.size with old | rfl | outside
  · rw [Array.getElem?_push,if_neg (Nat.ne_of_lt old)] at found
    obtain ⟨there,media⟩ := declared shape (pads ▸ held) n p past found
    refine ⟨there,fun known => ?_⟩
    rw [coloured p (by rw [media known]; exact known),media known]
  · rw [Array.getElem?_push_size] at found
    obtain rfl : shape = op.outputs := by
      rw [pads,padsAt,holds] at held
      exact (Option.some.inj held).symm
    refine ⟨more,fun _ => ?_⟩
    rw [← Option.some.inj found,pipe_addOutput,if_pos rfl]
  · rw [Array.getElem?_eq_none (by rw [Array.size_push]; exact outside)] at found
    cases found

theorem Plain.declaredFrom {l m : Ledger} (plain : Plain l m) (sound : Sound l.session l.pending)
    (declared : l.session.DeclaredFrom i start) : m.session.DeclaredFrom i start := by
  have coloured := plain.move.coloured sound
  cases plain with
  | anonymous => exact declared.of_same rfl rfl coloured
  | paint => exact declared.of_same rfl rfl coloured
  | place s _ _ pipes =>
    have stages := stage_addChain s pipes i
    by_cases new : i = s.stages.size
    · refine .of_bare ?_
      rw [stages,if_pos new]
    · rw [if_neg new] at stages
      refine declared.of_same (by rw [stages]) (padsAt_congr (by rw [stages]) fun o _ => ?_) coloured
      rw [addChain_eq]
      rfl
  | append s _ _ j op holds =>
    have stages := stage_append s j op i (inside_of_holds holds)
    by_cases new : i = s.stages.size
    · refine .of_bare ?_
      rw [stages,if_pos new]
    · rw [if_neg new] at stages
      refine declared.of_same ?_ (padsAt_congr ?_ fun o held => ?_) coloured
      · rw [stages]
        split <;> rfl
      · rw [stages]
        split <;> rfl
      · rw [operation_append,if_neg (Nat.ne_of_lt (sound.holding.inside i o held))]
  | output s _ _ j op holds _ more =>
    by_cases here : i = j
    · subst here
      exact declared.of_output (holds_inside holds) holds coloured more
    · have stages := stage_addOutput s j op i (holds_inside holds)
      rw [if_neg here] at stages
      exact declared.of_same (by rw [stages]) (padsAt_congr (by rw [stages]) fun _ _ => rfl) coloured
  | splice s _ _ a b insideA insideB tail apart =>
    have same : ((s.splice a (s.head b)).stage i).outputs = (s.stage i).outputs ∧
        ((s.splice a (s.head b)).stage i).operation = (s.stage i).operation := by
      simp only [Session.splice,stage]
      rw [getD_modify,getD_modify]
      split <;> split <;> exact ⟨rfl,rfl⟩
    exact declared.of_same same.1 (padsAt_congr same.2 fun _ _ => rfl) coloured
  | arguments s _ _ o args =>
    refine declared.of_same rfl (padsAt_congr rfl fun k _ => ?_) coloured
    rw [operation_putArguments]
    split <;> rfl
  | hold s _ _ j op inside vacant =>
    have stages := stage_hold s j op i
    by_cases here : i = j ∧ i < s.stages.size
    · refine .of_bare ?_
      rw [stages,if_pos here,here.1]
      refine Array.eq_empty_iff_forall_not_mem.mpr fun p member => ?_
      exact sound.feeding.working j p member vacant
    · rw [if_neg here] at stages
      refine declared.of_same (by rw [stages]) (padsAt_congr (by rw [stages]) fun o held => ?_) coloured
      rw [operation_hold,if_neg (Nat.ne_of_lt (sound.holding.inside i o held))]
  | turn _ _ turn => exact turn.declaredFrom sound declared

theorem Plains.declaredFrom {l m : Ledger} (plains : Plains l m) (kept : l.Kept)
    (declared : l.session.DeclaredFrom i start) : m.session.DeclaredFrom i start := by
  induction plains with
  | refl => exact declared
  | tail plains plain ih => exact plain.declaredFrom (Plains.kept plains kept).1 ih

section Exports
variable {p target : Nat} {name : String} {put : List (Nat × Nat)} {took : List Nat} {u : Unit}

theorem DeclaredFrom.of_retitle (declared : s.DeclaredFrom i start) (q : Nat) (name : String) :
    (s.retitle q name).DeclaredFrom i start := by
  refine declared.of_same rfl rfl (.of_same fun r => ?_)
  rw [Session.retitle,pipe_modifyPipe]
  split <;> rfl

theorem exportTarget_declared (kept : Ledger.Kept ⟨s,put,took,[]⟩) (outer : s.OuterPipe p)
    (declared : s.DeclaredFrom i start) (called : exportTarget name p s = .ok target t) :
    t.DeclaredFrom i start := by
  simp only [exportTarget,bind_ok,get_ok,choice_ok,pure_ok,and_assoc,exists_and_left,
    exists_eq_left] at called
  rcases called with
    ⟨_,rfl,rfl⟩ | ⟨_,⟨_,out,v,passed,_,w,renamed,rfl,rfl⟩ | ⟨_,_,v,renamed,rfl,rfl⟩⟩
  · exact declared
  · obtain ⟨plains,_⟩ := passThrough_ok kept outer passed
    obtain ⟨_,rfl⟩ := renamePipe_ok renamed
    exact (Plains.declaredFrom plains kept declared).of_retitle _ _
  · obtain ⟨_,rfl⟩ := renamePipe_ok renamed
    exact declared.of_retitle _ _

theorem exportPipe_declared {id : PipeId} (kept : Ledger.Kept ⟨s,put,took,[]⟩)
    (outer : s.OuterPipe id.index) (declared : s.DeclaredFrom i start)
    (called : exportPipe name id s = .ok u t) : t.DeclaredFrom i start := by
  obtain ⟨target,v,more,aimed,_,_,moves,_,known,_,_,_,resolved⟩ :=
    exportPipe_opened kept outer called
  have left := Closing.leave v (put ++ more) (took ++ more.map (·.1)) target known.1 known.2
  have keptV := Moves.kept moves kept
  have keptW := left.kept keptV
  have record : v.addReader target .exported = _ := addReader_eq target .exported v
  have idle (x : Nat) (member : x ∈ [v.readers.size]) :
      ((v.addReader target .exported).reader x).resolved = false := by
    rw [List.mem_singleton.mp member,reader_addReader,if_pos rfl]
  obtain ⟨turns,_⟩ := resolve_ok keptW idle resolved
  refine Plains.declaredFrom (Turns.plains turns) keptW ?_
  refine (exportTarget_declared kept outer declared aimed).of_same ?_ ?_ (left.coloured keptV)
  · rw [record]
    rfl
  · exact padsAt_congr (by rw [record]; rfl) fun _ _ => by rw [record]; rfl

theorem exportAll_declared {exports : List (String × PipeId)} (kept : Ledger.Kept ⟨s,put,took,[]⟩)
    (outer : ∀ entry ∈ exports, s.OuterPipe entry.2.index) (declared : s.DeclaredFrom i start)
    (called : exportAll exports s = .ok u t) : t.DeclaredFrom i start := by
  induction exports generalizing s put took with
  | nil =>
    obtain ⟨_,rfl⟩ := pure_ok.mp called
    exact declared
  | cons entry rest ih =>
    obtain ⟨name,id⟩ := entry
    obtain ⟨_,v,exported,called⟩ := bind_ok.mp called
    have known := outer (name,id) (by simp)
    obtain ⟨closings,_⟩ := exportPipe_ok kept known exported
    have later := Closings.later closings kept
    exact ih (Closings.kept closings kept)
      (fun other member => later.pipe _ (outer other (by simp [member])))
      (exportPipe_declared kept known declared exported) called

end Exports

end Steps
end Session

def Event.connected? : Event → Option ChainId
  | ⟨_,.connect chain _,_,_⟩ => some chain
  | _ => none

namespace Account
open Session
variable {catalog : Catalog} {events : List Event} {a : Account} {chain : ChainId}

theorem coloured_after {reply : Reply} {c : Call reply} {answer : reply.Value} {t : Session}
    (consistent : a.Consistent) (known : a.Knows c) (answered : perform c a.session = .ok answer t) :
    Coloured a.session t :=
  Closings.coloured (perform_reaches consistent.kept (known.issued consistent) answered).1.closings
    consistent.kept

/-- A call puts nothing else on the pads of a stage than what is declared, unless it connects a chain
that ends there. -/
theorem declaredFrom_after {reply : Reply} {c : Call reply} {answer : reply.Value} {t : Session}
    {i start : Nat} (declared : a.session.DeclaredFrom i start) (consistent : a.Consistent)
    (known : a.Knows c) (answered : perform c a.session = .ok answer t)
    (other : ∀ target, Event.connected? ⟨reply,c,a.session,answer⟩ = some target → target.index ≠ i) :
    t.DeclaredFrom i start := by
  have coloured := coloured_after consistent known answered
  by_cases plain : c.Plain
  · obtain ⟨plains,_⟩ := perform_plain plain consistent.kept (known.issued consistent) answered
    exact Plains.declaredFrom plains consistent.kept declared
  cases c with
  | namedPipe name =>
    obtain ⟨_,_,rfl⟩ := namedPipe_ok.mp answered
    exact declared.of_same rfl rfl coloured
  | inputStream spec =>
    obtain ⟨_,⟨_,_,_,rfl⟩ | ⟨_,_,rfl⟩⟩ := inputStream_ok.mp answered
    · exact declared
    · exact declared.of_same rfl rfl coloured
  | rename id name =>
    obtain ⟨_,_,rfl⟩ := rename_ok answered
    exact declared.of_same rfl rfl coloured
  | connect target outputs =>
    obtain ⟨_,_,_,full,_,_,_,_,_,rfl⟩ := connect_ok.mp answered
    have apart : i ≠ target.index := (other target rfl).symm
    obtain ⟨_,_,record⟩ := putOutputs_eq a.session target.index (outputs.map PipeId.index)
    have stages := stage_putOutputs a.session target.index (outputs.map PipeId.index) i
      (inside_of_holds full)
    rw [if_neg apart] at stages
    refine declared.of_same (by rw [stages]) (padsAt_congr (by rw [stages]) fun o _ => ?_) coloured
    rw [record]
    rfl
  | complete exports =>
    obtain ⟨_,v,exported,_,rfl⟩ := complete_ok.mp answered
    have outer (entry : String × PipeId) (member : entry ∈ exports) :
        a.session.OuterPipe entry.2.index :=
      ((known.issued consistent).pipe entry.2 (List.mem_map_of_mem member)).2
    exact (exportAll_declared consistent.kept outer declared exported).of_same rfl rfl (.refl v)
  | _ => exact absurd trivial plain

theorem connected_apart {reply : Reply} {c : Call reply} {answer : reply.Value}
    (consistent : a.Consistent) (known : a.Knows c) (own : chain.session = a.session.serial)
    (other : Event.connected? ⟨reply,c,a.session,answer⟩ ≠ some chain) (target : ChainId)
    (connected : Event.connected? ⟨reply,c,a.session,answer⟩ = some target) :
    target.index ≠ chain.index := by
  intro index
  have mine : target.session = a.session.serial := by
    refine (consistent.issued.chain target (known.2.1 target ?_)).1
    cases c <;> simp_all [Event.connected?,Call.chains]
  refine other (connected.trans (congrArg some ?_))
  cases target
  cases chain
  simp_all

theorem declared_after {reply : Reply} {c : Call reply} {answer : reply.Value} {t : Session}
    (declared : a.session.Declared chain.index) (consistent : a.Consistent) (known : a.Knows c)
    (answered : perform c a.session = .ok answer t) (own : chain.session = a.session.serial)
    (other : Event.connected? ⟨reply,c,a.session,answer⟩ ≠ some chain) : t.Declared chain.index :=
  declared_iff.mpr (declaredFrom_after (declared_iff.mp declared) consistent known answered
    (connected_apart consistent known own other))

/-- A chain that was never connected has outputs on declared pads only. -/
theorem Trace.declared (trace : Trace catalog events a) (own : chain.session = a.session.serial)
    (other : ∀ event ∈ events, event.connected? ≠ some chain) : a.session.Declared chain.index := by
  induction trace with
  | new serial => exact declared_iff.mpr (.of_bare rfl)
  | @call events a reply c answer t trace known answered ih =>
    have consistent := trace.reached.consistent
    have mine : chain.session = a.session.serial := own.trans (consistent.later known answered).serial
    refine declared_after (ih mine fun event member => ?_) consistent known answered mine
      (other _ (by simp))
    exact other event (by simp [member])

end Account
end MediaGraph
