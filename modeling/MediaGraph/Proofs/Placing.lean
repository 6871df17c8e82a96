import MediaGraph.Proofs.Building

/-! The calls that start a chain with its operation, as moves. -/
namespace MediaGraph.Session

variable {s t : Session} {put : List (Nat × Nat)} {took : List Nat}

theorem numbered_fst (r : Nat) (pipes : List Nat) :
    (numbered r pipes).map (·.1) = List.range' r pipes.length := by
  rw [numbered]
  exact List.map_fst_zip (by simp)

theorem markInputs_plains {pairs : List (PipeId × Media)} {u : Unit}
    (called : markInputs pairs s = .ok u t) :
    Plains ⟨s,put,took,[]⟩ ⟨t,put,took,[]⟩ ∧ t.readers = s.readers := by
  induction pairs generalizing s with
  | nil =>
    obtain ⟨_,rfl⟩ := pure_ok.mp called
    exact ⟨.refl,rfl⟩
  | cons pair rest ih =>
    obtain ⟨_,v,marked,called⟩ := bind_ok.mp called
    obtain ⟨moves,readers⟩ := ih called
    have first : Plains ⟨s,put,took,[]⟩ ⟨v,put,took,[]⟩ := setMedia_plains marked
    obtain ⟨_,_,rfl⟩ := setMedia_ok marked
    exact ⟨first.trans moves,readers⟩

theorem OuterPipeId.later {id : PipeId} (outer : s.OuterPipeId id) (later : Later s t) :
    t.OuterPipeId id :=
  ⟨outer.1.trans later.serial.symm,later.pipe _ outer.2⟩

theorem OuterChainId.later {id : ChainId} (outer : s.OuterChainId id) (later : Later s t) :
    t.OuterChainId id :=
  ⟨outer.1.trans later.serial.symm,later.stage _ outer.2⟩

theorem OuterOperationId.later {id : OperationId} (outer : s.OuterOperationId id)
    (later : Later s t) : t.OuterOperationId id :=
  ⟨outer.1.trans later.serial.symm,later.operation _ outer.2⟩

theorem place_plains {inputs : List PipeId} {op : Operation} {chain : ChainId}
    (kept : Ledger.Kept ⟨s,put,took,[]⟩) (outer : ∀ id ∈ inputs, s.OuterPipeId id)
    (called : place inputs op s = .ok chain t) :
    Plains ⟨s,put,took,[]⟩
        ⟨t,put ++ numbered s.readers.size (inputs.map PipeId.index),
          took ++ (numbered s.readers.size (inputs.map PipeId.index)).map (·.1),[]⟩ ∧
      t.OuterChainId chain := by
  simp only [place,bind_ok,requireOpen_ok,get_ok,and_assoc,exists_and_left,exists_eq_left,
    exists_const] at called
  obtain ⟨_,called⟩ := called
  have opened (v : Session) (marks : Plains ⟨s,put,took,[]⟩ ⟨v,put,took,[]⟩)
      (readers : v.readers = s.readers)
      (rest : (do extend (← start inputs) op) v = .ok chain t) :
      Plains ⟨s,put,took,[]⟩
          ⟨t,put ++ numbered s.readers.size (inputs.map PipeId.index),
            took ++ (numbered s.readers.size (inputs.map PipeId.index)).map (·.1),[]⟩ ∧
        t.OuterChainId chain := by
    obtain ⟨first,w,started,extended⟩ := bind_ok.mp rest
    have later := Plains.later marks kept
    have known (id : PipeId) (member : id ∈ inputs) := (outer id member).later later
    obtain ⟨moves,answered⟩ := open_plains (Plains.kept marks kept) known started extended
    rw [readers] at moves
    rw [numbered_fst,List.length_map]
    exact ⟨marks.trans moves,answered⟩
  cases found : s.catalog.get? op.name with
  | some spec =>
    rw [found] at called
    obtain ⟨_,v,marked,rest⟩ := bind_ok.mp called
    obtain ⟨moves,readers⟩ := markInputs_plains marked
    exact opened v moves readers rest
  | none =>
    rw [found] at called
    exact opened s .refl rfl called

theorem apply_plains {name : String} {inputs : List PipeId} {args : List Argument} {chain : ChainId}
    (kept : Ledger.Kept ⟨s,put,took,[]⟩) (outer : ∀ id ∈ inputs, s.OuterPipeId id)
    (called : apply name inputs args s = .ok chain t) :
    Plains ⟨s,put,took,[]⟩
        ⟨t,put ++ numbered s.readers.size (inputs.map PipeId.index),
          took ++ (numbered s.readers.size (inputs.map PipeId.index)).map (·.1),[]⟩ ∧
      t.OuterChainId chain := by
  simp only [apply,bind_ok,requireOpen_ok,and_assoc,exists_and_left,exists_eq_left,
    exists_const] at called
  obtain ⟨_,op,v,found,placed⟩ := called
  have same : v = s := by
    simp only [filter,bind_ok,get_ok,and_assoc,exists_and_left,exists_eq_left] at found
    cases known : s.catalog.get? name with
    | some spec =>
      rw [known] at found
      exact (pure_ok.mp found).2
    | none => simp [known,throw_ok] at found
  subst same
  exact place_plains kept outer placed

theorem helper_ok {h : Helper} {p : Pipe} {name : String} (called : helper h p s = .ok name t) :
    h.filter p.media p.describe = .ok name ∧ t = s := by
  unfold helper at called
  cases found : h.filter p.media p.describe with
  | ok other =>
    rw [found] at called
    obtain ⟨rfl,rfl⟩ := pure_ok.mp called
    exact ⟨rfl,rfl⟩
  | error e => simp [found,throw_ok] at called

theorem splitChain_plains {id : PipeId} {count : Nat} {chain : ChainId}
    (kept : Ledger.Kept ⟨s,put,took,[]⟩) (outer : s.OuterPipeId id)
    (called : splitChain id count s = .ok chain t) :
    Plains ⟨s,put,took,[]⟩
        ⟨t,put ++ [(s.readers.size,id.index)],took ++ [s.readers.size],[]⟩ ∧
      t.OuterChainId chain := by
  simp only [splitChain,bind_ok,requireOpen_ok,get_ok,pipeIndex_ok,and_assoc,exists_and_left,
    exists_eq_left,exists_const] at called
  obtain ⟨_,_,_,name,v,named,first,w,started,extended⟩ := called
  obtain ⟨_,rfl⟩ := helper_ok named
  exact open_plains kept (by simpa using outer) started extended

theorem split_plains {id : PipeId} {count : Nat} {pipes : List PipeId}
    (kept : Ledger.Kept ⟨s,put,took,[]⟩) (outer : s.OuterPipeId id)
    (called : split id count s = .ok pipes t) :
    Plains ⟨s,put,took,[]⟩
        ⟨t,put ++ [(s.readers.size,id.index)],took ++ [s.readers.size],[]⟩ ∧
      ∀ out ∈ pipes, t.OuterPipeId out := by
  obtain ⟨chain,v,made,taken⟩ := bind_ok.mp called
  obtain ⟨first,known⟩ := splitChain_plains kept outer made
  obtain ⟨second,_,answered⟩ := takeOutputs_plains (Plains.kept first kept) known taken
  exact ⟨first.trans second,answered⟩

theorem discard_plains {id : PipeId} {chain : ChainId} (kept : Ledger.Kept ⟨s,put,took,[]⟩)
    (outer : s.OuterPipeId id) (called : discard id s = .ok chain t) :
    Plains ⟨s,put,took,[]⟩
        ⟨t,put ++ [(s.readers.size,id.index)],took ++ [s.readers.size],[]⟩ ∧
      t.OuterChainId chain := by
  simp only [discard,bind_ok,requireOpen_ok,get_ok,pipeIndex_ok,and_assoc,exists_and_left,
    exists_eq_left,exists_const] at called
  obtain ⟨_,_,_,name,v,named,first,w,started,extended⟩ := called
  obtain ⟨_,rfl⟩ := helper_ok named
  exact open_plains kept (by simpa using outer) started extended

end MediaGraph.Session
