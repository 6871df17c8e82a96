import MediaGraph.Concat
import MediaGraph.Proofs.Exporting

/-! What calls keep over a run.
Every call that succeeds is made of moves, and completing a graph of moves and exports.
So whatever moves keep holds of each session that a run of calls comes to. -/
namespace MediaGraph

/-- The call neither chooses a name, nor puts pipes on pads, nor completes the graph. -/
def Call.Plain {reply : Reply} : Call reply → Prop
  | .namedPipe _ => False
  | .inputStream _ => False
  | .rename _ _ => False
  | .connect _ _ => False
  | .complete _ => False
  | _ => True

namespace Session

structure Issued (s : Session) (pipes : List PipeId) (chains : List ChainId)
    (operations : List OperationId) : Prop where
  pipe : ∀ id ∈ pipes, s.OuterPipeId id
  chain : ∀ id ∈ chains, s.OuterChainId id
  operation : ∀ id ∈ operations, s.OuterOperationId id

theorem Issued.later {s t : Session} {pipes : List PipeId} {chains : List ChainId}
    {operations : List OperationId} (issued : s.Issued pipes chains operations)
    (later : Later s t) : t.Issued pipes chains operations where
  pipe id member := (issued.pipe id member).later later
  chain id member := (issued.chain id member).later later
  operation id member := (issued.operation id member).later later

theorem Issued.append {s : Session} {pipes pipes' : List PipeId} {chains chains' : List ChainId}
    {operations operations' : List OperationId} (issued : s.Issued pipes chains operations)
    (more : s.Issued pipes' chains' operations') :
    s.Issued (pipes ++ pipes') (chains ++ chains') (operations ++ operations') where
  pipe id member := (List.mem_append.mp member).elim (issued.pipe id) (more.pipe id)
  chain id member := (List.mem_append.mp member).elim (issued.chain id) (more.chain id)
  operation id member :=
    (List.mem_append.mp member).elim (issued.operation id) (more.operation id)

/-- From one ledger to another; a graph that is still open was not being completed. -/
structure Reaches (l m : Ledger) : Prop where
  closings : Closings l m
  moves : m.session.completed = false → Moves l m

section Calls
variable {s t : Session} {put more : List (Nat × Nat)} {took turns : List Nat}

theorem Reaches.of_moves {l m : Ledger} (moves : Moves l m) : Reaches l m :=
  ⟨Moves.closings moves,fun _ => moves⟩

theorem Moves.quiet (moves : Moves ⟨s,put,took,[]⟩ ⟨t,put,took,[]⟩) :
    Moves ⟨s,put,took,[]⟩ ⟨t,put ++ [],took ++ [],[]⟩ := by
  rwa [List.append_nil,List.append_nil]

theorem Plains.quiet (plains : Plains ⟨s,put,took,[]⟩ ⟨t,put,took,[]⟩) :
    Plains ⟨s,put,took,[]⟩ ⟨t,put ++ [],took ++ [],[]⟩ := by
  rwa [List.append_nil,List.append_nil]

theorem issued_nil (s : Session) : s.Issued [] [] [] :=
  ⟨by simp,by simp,by simp⟩

theorem issued_pipes {pipes : List PipeId} (outer : ∀ id ∈ pipes, s.OuterPipeId id) :
    s.Issued pipes [] [] :=
  ⟨outer,by simp,by simp⟩

theorem issued_pipe {id : PipeId} (outer : s.OuterPipeId id) : s.Issued [id] [] [] :=
  issued_pipes (by simpa using outer)

theorem issued_chain {id : ChainId} (outer : s.OuterChainId id) : s.Issued [] [id] [] :=
  ⟨by simp,by simpa using outer,by simp⟩

theorem complete_ok {exports : List (String × PipeId)} {u : Unit} :
    complete exports s = .ok u t ↔
      s.completed = false ∧ ∃ v, exportAll exports s = .ok () v ∧ v.validate = .ok () ∧
        t = v.close := by
  simp only [complete,bind_ok,requireOpen_ok,get_ok,and_assoc,exists_and_left,exists_eq_left,
    exists_const]
  constructor
  · rintro ⟨isOpen,_,v,exported,checked⟩
    cases valid : v.validate with
    | error e => simp [valid,throw_ok] at checked
    | ok =>
      rw [valid] at checked
      exact ⟨isOpen,v,exported,valid,modify_ok.mp checked⟩
  · rintro ⟨isOpen,v,exported,valid,rfl⟩
    refine ⟨isOpen,(),v,exported,?_⟩
    rw [valid]
    exact modify_ok.mpr rfl

theorem operationOf_ok {chain : ChainId} {answer : Option OperationId}
    (kept : Ledger.Kept ⟨s,put,took,[]⟩) (outer : s.OuterChainId chain)
    (called : operationOf chain s = .ok answer t) :
    t = s ∧ s.Issued [] [] answer.toList := by
  simp only [operationOf,bind_ok,stageIndex_ok,get_ok,pure_ok,and_assoc,exists_and_left,
    exists_eq_left] at called
  obtain ⟨_,_,rfl,rfl⟩ := called
  refine ⟨rfl,by simp,by simp,fun id member => ?_⟩
  obtain ⟨o,holds,rfl⟩ := Option.map_eq_some_iff.mp (Option.mem_toList.mp member)
  exact ⟨rfl,outer_of_holds kept.1 outer.2.2 holds⟩

theorem filter_ok {name : String} {op : Operation} (called : filter name s = .ok op t) : t = s := by
  simp only [filter,bind_ok,get_ok,and_assoc,exists_and_left,exists_eq_left] at called
  cases known : s.catalog.get? name with
  | some spec =>
    rw [known] at called
    exact (pure_ok.mp called).2
  | none => simp [known,throw_ok] at called

theorem lookUp_ok {id : PipeId} {pipe : Pipe} (called : lookUp id s = .ok pipe t) : t = s := by
  simp only [lookUp,bind_ok,pipeIndex_ok,get_ok,pure_ok,and_assoc,exists_and_left,
    exists_eq_left] at called
  exact called.2.2.2

theorem lookUpOperation_ok {id : OperationId} {op : Operation}
    (called : lookUpOperation id s = .ok op t) : t = s := by
  simp only [lookUpOperation,bind_ok,get_ok,ofExcept_ok,and_assoc,exists_and_left,
    exists_eq_left] at called
  exact called.2

theorem perform_plain {reply : Reply} {c : Call reply} {answer : reply.Value} (plain : c.Plain)
    (kept : Ledger.Kept ⟨s,put,took,[]⟩) (issued : s.Issued c.pipes c.chains c.operations)
    (called : perform c s = .ok answer t) :
    Plains ⟨s,put,took,[]⟩ ⟨t,put ++ c.put s t answer,took ++ c.took s t answer,[]⟩ ∧
      t.Issued (reply.givenPipes answer) (reply.givenChains answer)
        (reply.givenOperations answer) := by
  have pipe (id : PipeId) (member : id ∈ c.pipes) := issued.pipe id member
  have chain (id : ChainId) (member : id ∈ c.chains) := issued.chain id member
  cases c with
  | newPipe =>
    obtain ⟨plains,known⟩ := newPipe_plains kept called
    exact ⟨Plains.quiet plains,issued_pipe known⟩
  | setMedia id media => exact ⟨Plains.quiet (setMedia_plains called),issued_nil t⟩
  | setHint id hint => exact ⟨Plains.quiet (setHint_plains called),issued_nil t⟩
  | lookUp id =>
    obtain rfl := lookUp_ok called
    exact ⟨Plains.quiet .refl,issued_nil t⟩
  | countReaders id =>
    obtain ⟨_,v,found,done⟩ := bind_ok.mp called
    obtain ⟨_,rfl⟩ := pure_ok.mp done
    obtain rfl := lookUp_ok found
    exact ⟨Plains.quiet .refl,issued_nil t⟩
  | start inputs =>
    obtain ⟨plains,_,known,_⟩ := start_plains kept pipe called
    exact ⟨by simpa [Call.put,Call.took,Call.pipes] using plains,issued_chain known⟩
  | extend id op =>
    obtain ⟨plains,known⟩ := extend_plains kept (chain id (by simp [Call.chains])) called
    exact ⟨by simpa [Call.put,Call.took] using plains,issued_chain known⟩
  | fork id count =>
    obtain ⟨plains,known⟩ := fork_plains kept (chain id (by simp [Call.chains])) called
    exact ⟨by simpa [Call.put,Call.took] using plains,issued_chain known⟩
  | output id index =>
    obtain ⟨plains,_,known⟩ := output_plains kept (chain id (by simp [Call.chains])) called
    exact ⟨Plains.quiet plains,issued_pipe known⟩
  | takeOutputs id count =>
    obtain ⟨plains,_,known⟩ := takeOutputs_plains kept (chain id (by simp [Call.chains])) called
    exact ⟨Plains.quiet plains,issued_pipes known⟩
  | iterate id limit =>
    obtain ⟨plains,known⟩ := iterate_plains kept (chain id (by simp [Call.chains])) called
    exact ⟨Plains.quiet plains,issued_pipes known⟩
  | link source target =>
    have plains : Plains ⟨s,put,took,[]⟩ ⟨t,put,took,[]⟩ :=
      link_plains (chain source (by simp [Call.chains])) (chain target (by simp [Call.chains])) called
    exact ⟨Plains.quiet plains,issued_nil t⟩
  | operationOf id =>
    obtain ⟨rfl,known⟩ := operationOf_ok kept (chain id (by simp [Call.chains])) called
    exact ⟨Plains.quiet .refl,known⟩
  | lookUpOperation id =>
    obtain rfl := lookUpOperation_ok called
    exact ⟨Plains.quiet .refl,issued_nil t⟩
  | setArguments id args =>
    have plains : Plains ⟨s,put,took,[]⟩ ⟨t,put,took,[]⟩ := setArguments_plains
      (issued.operation id (by simp [Call.operations])) called
    exact ⟨Plains.quiet plains,issued_nil t⟩
  | filter name =>
    obtain rfl := filter_ok called
    exact ⟨Plains.quiet .refl,issued_nil t⟩
  | apply name inputs args =>
    obtain ⟨plains,known⟩ := apply_plains kept pipe called
    exact ⟨plains,issued_chain known⟩
  | place inputs op =>
    obtain ⟨plains,known⟩ := place_plains kept pipe called
    exact ⟨plains,issued_chain known⟩
  | split id count =>
    obtain ⟨plains,known⟩ := split_plains kept (pipe id (by simp [Call.pipes])) called
    exact ⟨plains,issued_pipes known⟩
  | splitChain id count =>
    obtain ⟨plains,known⟩ := splitChain_plains kept (pipe id (by simp [Call.pipes])) called
    exact ⟨plains,issued_chain known⟩
  | discard id =>
    obtain ⟨plains,known⟩ := discard_plains kept (pipe id (by simp [Call.pipes])) called
    exact ⟨plains,issued_chain known⟩
  | _ => exact plain.elim

theorem perform_reaches {reply : Reply} {c : Call reply} {answer : reply.Value}
    (kept : Ledger.Kept ⟨s,put,took,[]⟩) (issued : s.Issued c.pipes c.chains c.operations)
    (called : perform c s = .ok answer t) :
    Reaches ⟨s,put,took,[]⟩ ⟨t,put ++ c.put s t answer,took ++ c.took s t answer,[]⟩ ∧
      t.Issued (reply.givenPipes answer) (reply.givenChains answer)
        (reply.givenOperations answer) := by
  by_cases plain : c.Plain
  · obtain ⟨plains,known⟩ := perform_plain plain kept issued called
    exact ⟨.of_moves (Plains.moves plains),known⟩
  cases c with
  | namedPipe name =>
    obtain ⟨moves,known⟩ := namedPipe_moves kept called
    exact ⟨.of_moves (Moves.quiet moves),issued_pipe known⟩
  | inputStream spec =>
    obtain ⟨moves,known⟩ := inputStream_moves kept called
    exact ⟨.of_moves (Moves.quiet moves),issued_pipe known⟩
  | rename id name => exact ⟨.of_moves (Moves.quiet (rename_moves called)),issued_nil t⟩
  | connect id outputs =>
    have moves : Moves ⟨s,put,took,[]⟩ ⟨t,put,took,[]⟩ :=
      connect_moves (issued.chain id (by simp [Call.chains])) called
    exact ⟨.of_moves (Moves.quiet moves),issued_nil t⟩
  | complete exports =>
    obtain ⟨_,v,exported,_,rfl⟩ := complete_ok.mp called
    have outer (entry : String × PipeId) (member : entry ∈ exports) : s.OuterPipe entry.2.index :=
      (issued.pipe entry.2 (List.mem_map_of_mem member)).2
    refine ⟨⟨?_,nofun⟩,issued_nil v.close⟩
    exact .tail (exportAll_closings kept outer exported) (.close v _ _)
  | _ => exact absurd trivial plain

end Calls
end Session

namespace Account
open Session

structure Consistent (a : Account) : Prop where
  kept : Ledger.Kept ⟨a.session,a.put,a.took,[]⟩
  issued : a.session.Issued a.pipes a.chains a.operations
  enclosed : a.session.completed = false → Labelled a.session []

theorem Consistent.new (serial : Nat) (catalog : Catalog) : (new serial catalog).Consistent where
  kept := ⟨.of_new serial catalog,.of_new serial catalog⟩
  issued := issued_nil _
  enclosed _ := ⟨by simp,fun r bound => absurd bound (Nat.not_lt_zero r),by simp,by simp⟩

theorem Knows.issued {a : Account} {reply : Reply} {c : Call reply} (known : a.Knows c)
    (consistent : a.Consistent) : a.session.Issued c.pipes c.chains c.operations where
  pipe id member := consistent.issued.pipe id (known.1 id member)
  chain id member := consistent.issued.chain id (known.2.1 id member)
  operation id member := consistent.issued.operation id (known.2.2 id member)

theorem Consistent.before {a : Account} {reply : Reply} {c : Call reply} {answer : reply.Value}
    {t : Session} (consistent : a.Consistent) (known : a.Knows c)
    (answered : perform c a.session = .ok answer t) (isOpen : t.completed = false) :
    a.session.completed = false := by
  obtain ⟨reaches,_⟩ := perform_reaches consistent.kept (known.issued consistent) answered
  exact (Moves.completed (reaches.moves isOpen)).symm.trans isOpen

theorem Consistent.later {a : Account} {reply : Reply} {c : Call reply} {answer : reply.Value}
    {t : Session} (consistent : a.Consistent) (known : a.Knows c)
    (answered : perform c a.session = .ok answer t) : Later a.session t := by
  obtain ⟨reaches,_⟩ := perform_reaches consistent.kept (known.issued consistent) answered
  exact Closings.later reaches.closings consistent.kept

theorem Consistent.after {a : Account} {reply : Reply} {c : Call reply} {answer : reply.Value}
    {t : Session} (consistent : a.Consistent) (known : a.Knows c)
    (answered : perform c a.session = .ok answer t) : (a.after c answer t).Consistent := by
  obtain ⟨reaches,given⟩ := perform_reaches consistent.kept (known.issued consistent) answered
  have issued := consistent.issued.later (consistent.later known answered)
  refine ⟨Closings.kept reaches.closings consistent.kept,issued.append given,
    fun isOpen => ?_⟩
  exact Moves.labelled (reaches.moves isOpen) consistent.kept
    (consistent.enclosed (consistent.before known answered isOpen))

theorem Reached.consistent {catalog : Catalog} {a : Account} (reached : Reached catalog a) :
    a.Consistent := by
  induction reached with
  | new serial => exact .new serial catalog
  | call c answer t _ known answered ih => exact ih.after known answered

end Account
end MediaGraph
