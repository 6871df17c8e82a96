import MediaGraph.Proofs.Following

/-! What a reader gets when its turn comes.
It takes its pipe where that is free, and an output of the split behind the pipe
otherwise. The split is put there for the second reader, and then the reader that
had the pipe moves to its first output. -/
namespace MediaGraph.Session

section Branches
variable {s t : Session}

/-- One more output of a split, on which there is no reader yet. -/
def grow (i o : Nat) (media : Media) (s : Session) : Session :=
  let n := (s.stage i).outputs.size
  { s with
    pipes := s.pipes.push
      { Pipe.anonymous s.freshName with
        media := media
        fed := true
        taken := true
        hint := some s!"{(s.operation o).name}.output.{n}" }
    operations := s.operations.modify o fun op => op.withArguments [.ofNat (n + 1)]
    stages := s.stages.modify i fun stage =>
      { stage with outputs := stage.outputs.push s.pipes.size }
    counter := s.counter + 1 }

theorem addOutput_eq (i : Nat) (op : Operation) (s : Session) :
    s.addOutput i op =
      { s with
        pipes := s.pipes.push
          { Pipe.anonymous s.freshName with
            hint := some s!"{op.name}.output.{(s.stage i).outputs.size}"
            media := op.outputs.media (s.stage i).outputs.size
            fed := true }
        stages := s.stages.modify i fun stage =>
          { stage with outputs := stage.outputs.push s.pipes.size }
        counter := s.counter + 1 } := rfl

theorem nextBranch_ok {i out p o r : Nat} (duplicates : s.Duplicates p i o r)
    (called : nextBranch i s = .ok out t) :
    out = s.pipes.size ∧ (s.stage i).outputs.size < outputLimit ∧
      t = s.grow i o (s.pipe p).media := by
  have held : s.operationAt i = some (s.operation o) := by simp [operationAt,duplicates.holds]
  have dynamic : (s.operation o).outputs = .dynamic := by
    rw [duplicates.operation]
    rfl
  have bound : i < s.stages.size := inside_of_holds (by simp [duplicates.holds])
  simp only [nextBranch,bind_ok,get_ok,and_assoc,exists_and_left,exists_eq_left] at called
  obtain ⟨answer,s₁,asked,called⟩ := called
  rcases outputAt_ok.mp asked with ⟨empty,_⟩ | ⟨op,same,⟨q,there,_⟩ | ⟨_,_,_,⟨lacks,_⟩ | made⟩⟩
  · simp [held] at empty
  · simp at there
  · rw [held] at same
    cases same
    simp [dynamic,Pads.lacks,Pads.count] at lacks
  obtain ⟨_,room,rfl,rfl⟩ := made
  rw [held] at same
  cases same
  have added : s.addOutputs i (s.operation o) ((s.stage i).outputs.size + 1 - (s.stage i).outputs.size) =
      s.addOutput i (s.operation o) := by
    rw [Nat.add_sub_cancel_left]
    rfl
  have stages (j : Nat) := stage_addOutput s i (s.operation o) j bound
  have pipes (q : Nat) := pipe_addOutput s i (s.operation o) q
  have source : p ≠ s.pipes.size := by
    rintro rfl
    have outside : s.pipe s.pipes.size = .anonymous "" := by simp [pipe]
    rcases duplicates.media with media | media <;> simp [outside,Pipe.anonymous] at media
  rw [added] at called
  have answered : ((s.addOutput i (s.operation o)).stage i).outputs[(s.stage i).outputs.size]? =
      some s.pipes.size := by simp [stages]
  simp only [answered,duplicates.holds,bind_ok,modify_ok,get_ok,updatePipe_ok,pure_ok] at called
  obtain ⟨_,_,rfl,_,_,⟨rfl,rfl⟩,_,_,⟨marked,mark,rfl⟩,_,_,⟨_,take,rfl⟩,rfl,rfl⟩ := called
  refine ⟨rfl,room,?_⟩
  -- The source of the split, its media, and the new pipe as the later steps see them.
  let s₂ := putArguments o [.ofNat ((s.stage i).outputs.size + 1)] (s.addOutput i (s.operation o))
  let made := { Pipe.anonymous s.freshName with
    hint := some s!"{(s.operation o).name}.output.{(s.stage i).outputs.size}"
    media := Media.unknown
    fed := true }
  have feeds : s₂.inputPipes i = [p] := by
    have stage : s₂.stage i = (s.addOutput i (s.operation o)).stage i := rfl
    have reader : s₂.reader r = s.reader r := rfl
    simp [inputPipes,stage,stages,duplicates.reads,reader,duplicates.reader]
  have media : ((s₂.inputPipes i).head?.map fun q => (s₂.pipe q).media).getD .unknown =
      (s.pipe p).media := by
    have pipe : s₂.pipe p = (s.addOutput i (s.operation o)).pipe p := rfl
    simp [feeds,pipe,pipes,source]
  have new : s₂.pipe s.pipes.size = made := by
    have pipe : s₂.pipe s.pipes.size = (s.addOutput i (s.operation o)).pipe s.pipes.size := rfl
    rw [pipe,pipes,if_pos rfl,dynamic]
    rfl
  have settled : marked = { made with media := (s.pipe p).media } := by
    change (s₂.pipe s.pipes.size).mark _ = _ at mark
    rw [media,new] at mark
    rcases duplicates.media with known | known <;>
      simpa [Pipe.mark,made,known,eq_comm] using mark
  have size : s₂.pipes.size = s.pipes.size + 1 := Array.size_push ..
  have took : (s₂.modifyPipe s.pipes.size fun _ => marked).pipe s.pipes.size = marked := by
    rw [pipe_modifyPipe,if_pos ⟨rfl,by omega⟩]
  change ((s₂.modifyPipe s.pipes.size fun _ => marked).pipe s.pipes.size).take = _ at take
  rw [took,settled] at take
  simp only [Pipe.take,made,Pipe.anonymous,Bool.false_eq_true,if_false,Except.ok.injEq] at take
  subst take
  change (s₂.modifyPipe s.pipes.size fun _ => marked).modifyPipe s.pipes.size _ = _
  simp only [modifyPipe,s₂,putArguments,addOutput_eq,modify_push]
  rfl

theorem rebind_eq {pipes : Array Pipe} {new : Pipe} {r : Nat}
    (last : s.pipes = pipes.push new) (inside : (s.reader r).pipe < pipes.size) :
    s.rebind r pipes.size =
      { s with
        pipes := (pipes.modify (s.reader r).pipe fun p =>
          { p with
            name := if (s.reader r).owner = .exported then new.name else p.name
            fixed := if (s.reader r).owner = .exported then new.fixed else p.fixed
            readers := p.readers.filter (· != r) }).push
          { new with
            name := if (s.reader r).owner = .exported then (s.pipe (s.reader r).pipe).name
              else new.name
            fixed := if (s.reader r).owner = .exported then (s.pipe (s.reader r).pipe).fixed
              else new.fixed
            readers := new.readers ++ [r] }
        readers := s.readers.modify r fun reader => { reader with pipe := pipes.size } } := by
  have other : (s.reader r).pipe ≠ pipes.size := by omega
  have source : s.pipe (s.reader r).pipe = (pipes[(s.reader r).pipe]?).getD (.anonymous "") := by
    rw [pipe,last,getD_push,if_neg other]
  have modifyOld (xs : Array Pipe) (size : xs.size = pipes.size) (x : Pipe) (f : Pipe → Pipe) :
      (xs.push x).modify (s.reader r).pipe f = (xs.modify (s.reader r).pipe f).push x :=
    modify_push_other _ _ _ _ (size ▸ inside)
  have modifyNew (xs : Array Pipe) (size : xs.size = pipes.size) (x : Pipe) (f : Pipe → Pipe) :
      (xs.push x).modify pipes.size f = xs.push (f x) := by rw [← size,modify_push]
  let left (p : Pipe) : Pipe := { p with readers := p.readers.filter (· != r) }
  let gained : Pipe := { new with readers := new.readers ++ [r] }
  let moved : Session := { s with
    pipes := (pipes.modify (s.reader r).pipe left).push gained
    readers := s.readers.modify r fun reader => { reader with pipe := pipes.size } }
  have start : modifyReader r (fun reader => { reader with pipe := pipes.size })
      ((s.modifyPipe (s.reader r).pipe left).modifyPipe pipes.size fun p =>
        { p with readers := p.readers ++ [r] }) = moved := by
    simp only [modifyReader,modifyPipe,last]
    rw [modifyOld _ rfl,modifyNew _ (by simp)]
  have first : moved.pipe (s.reader r).pipe = left (s.pipe (s.reader r).pipe) := by
    rw [pipe,getD_push,if_neg (by simpa using other),getD_modify_at _ _ _ _ _ inside,if_pos rfl,
      source]
  have second : moved.pipe pipes.size = gained := by
    rw [pipe,getD_push,if_pos (by simp)]
  unfold rebind
  change (if (s.reader r).owner = .exported then swapNames (s.reader r).pipe pipes.size
    (modifyReader r _ ((s.modifyPipe (s.reader r).pipe left).modifyPipe pipes.size _)) else
    modifyReader r _ ((s.modifyPipe (s.reader r).pipe left).modifyPipe pipes.size _)) = _
  rw [start]
  by_cases exported : (s.reader r).owner = .exported
  · simp only [exported,if_true,swapNames,first,second,modifyPipe,moved]
    rw [modifyOld _ (by simp),modifyNew _ (by simp),modify_modify]
    rfl
  · simp only [exported,if_false]
    rfl

theorem rebind_grow {i o r : Nat} (inside : (s.reader r).pipe < s.pipes.size) :
    rebind r s.pipes.size (markResolved r (s.grow i o (s.pipe (s.reader r).pipe).media)) =
      s.moveTo i o r := by
  let u := markResolved r (s.grow i o (s.pipe (s.reader r).pipe).media)
  have reader : (u.reader r).pipe = (s.reader r).pipe ∧ (u.reader r).owner = (s.reader r).owner := by
    have found : u.reader r = if r = r ∧ r < s.readers.size then
        { s.reader r with resolved := true } else s.reader r := getD_modify ..
    rw [found]
    split <;> exact ⟨rfl,rfl⟩
  have source : u.pipe (s.reader r).pipe = s.pipe (s.reader r).pipe := by
    have found : u.pipe (s.reader r).pipe = _ := getD_push ..
    rw [found,if_neg (Nat.ne_of_lt inside)]
    rfl
  have pushed : u.pipes = s.pipes.push _ := rfl
  change rebind r s.pipes.size u = _
  rw [rebind_eq pushed (reader.1 ▸ inside),reader.1,reader.2,source]
  have readers : u.readers.modify r (fun reader => { reader with pipe := s.pipes.size }) =
      s.readers.modify r fun reader => { reader with pipe := s.pipes.size, resolved := true } :=
    modify_modify s.readers (fun reader => { reader with resolved := true })
      (fun reader => { reader with pipe := s.pipes.size }) r
  rw [readers]
  unfold moveTo deserted branchFor
  by_cases exported : (s.reader r).owner = .exported
  · simp [u,markResolved,modifyReader,grow,exported,Pipe.anonymous]
  · simp [u,markResolved,modifyReader,grow,exported,Pipe.anonymous]

theorem markResolved_same {r : Nat} (resolved : (s.reader r).resolved = true) :
    markResolved r s = s := by
  have same : s.readers.modify r (fun reader => { reader with resolved := true }) = s.readers := by
    rw [modify_congr s.readers _ id ⟨0,.exported,false⟩ r,modify_same]
    change { s.reader r with resolved := true } = s.reader r
    rw [← resolved]
  simp only [markResolved,modifyReader,same]

theorem branchTo_ok {i o x r out : Nat} {u : Session}
    (duplicates : s.Duplicates (s.reader r).pipe i o x) (inside : (s.reader r).pipe < s.pipes.size)
    (called : nextBranch i s = .ok out u) : rebind r out (markResolved r u) = s.moveTo i o r := by
  obtain ⟨rfl,_,rfl⟩ := nextBranch_ok duplicates called
  exact rebind_grow inside

theorem takePipe_ok {p : Nat} {u : Unit} (called : updatePipe p Pipe.take s = .ok u t) :
    t = s.modifyPipe p fun pipe => if pipe.shared then pipe else { pipe with taken := true } := by
  obtain ⟨pipe,took,rfl⟩ := updatePipe_ok.mp called
  simp only [modifyPipe]
  congr 1
  refine modify_congr _ _ _ (.anonymous "") p ?_
  change pipe = if (s.pipe p).shared then s.pipe p else { s.pipe p with taken := true }
  unfold Pipe.take at took
  split at took
  next shared =>
    rw [if_pos shared]
    exact (Except.ok.inj took).symm
  next own =>
    rw [if_neg own]
    split at took
    · cases took
    · exact (Except.ok.inj took).symm

theorem attach_eq (p : Nat) (name : String) (s : Session) :
    (s
      |>.addStage .empty
      |>.addReader p (.stage s.stages.size)
      |>.markResolved s.readers.size
      |>.addOperation ((Operation.named name).withArguments [.ofNat 0])
      |>.modifyStage s.stages.size (fun stage =>
        { stage with inputs := [s.readers.size], operation := some s.operations.size })
      |>.addRoot s.stages.size
      |>.modifyPipe p (fun pipe => { pipe with splitter := some s.stages.size })) =
    s.attach p name := by
  simp only [addStage,addReader_eq,markResolved,modifyReader,modify_push,addOperation,modifyStage,
    addRoot,modifyPipe,modify_modify]
  rfl

end Branches

section Turns
variable {s t : Session} {put : List (Nat × Nat)} {took rest : List Nat} {r : Nat}

theorem directReaders_attach (sound : Sound s (r :: rest)) {d p : Nat} {name : String}
    (idle : ∀ x ∈ r :: rest, (s.reader x).resolved = false)
    (own : (s.pipe p).shared = false) (takes : s.Takes (r :: rest) d p) :
    (s.attach p name).directReaders p s.stages.size = [d] := by
  have inside := sound.reading.pipe_inside takes
  have readers (x : Nat) := reader_attach s p name x
  have noted : ((s.attach p name).pipe p).readers = (s.pipe p).readers ++ [s.readers.size] := by
    rw [pipe_attach s p name p inside,if_pos rfl]
    exact note_readers _ _ own
  have fresh : s.readers.size ∉ (s.pipe p).readers := fun member =>
    Nat.lt_irrefl _ ((sound.reading.noted p own _).mp member).1
  have once : ((s.attach p name).pipe p).readers.Nodup := by
    rw [noted]
    exact List.nodup_append.mpr ⟨sound.reading.notedOnce p own,by simp,fun x member y last same =>
      fresh ((same.trans (List.mem_singleton.mp last)) ▸ member)⟩
  refine filter_eq_singleton once fun x => ?_
  rw [noted,readers]
  constructor
  · rintro ⟨member,kept⟩
    by_cases last : x = s.readers.size
    · simp [last] at kept
    · rw [if_neg last] at kept
      simp only [Bool.and_eq_true,beq_iff_eq] at kept
      refine sound.reading.sole p own x d ⟨kept.1.1,fun listed => ?_,kept.1.2⟩ takes
      rw [idle x listed] at kept
      exact Bool.false_ne_true kept.1.1
  · rintro rfl
    have bound := inside_of_resolved takes.1
    have owner : (s.reader x).owner ≠ .stage s.stages.size := sound.reading.owner_ne bound
    rw [if_neg (Nat.ne_of_lt bound)]
    refine ⟨List.mem_append_left _ ((sound.reading.noted p own x).mpr ⟨bound,takes.2.2⟩),?_⟩
    simp [takes.1,takes.2.2,owner]

theorem insertSplitter_ok (sound : Sound s (r :: rest)) {d i : Nat}
    (idle : ∀ x ∈ r :: rest, (s.reader x).resolved = false)
    (own : (s.pipe (s.reader r).pipe).shared = false)
    (first : (s.pipe (s.reader r).pipe).splitter = none)
    (takes : s.Takes (r :: rest) d (s.reader r).pipe)
    (called : insertSplitter (s.reader r).pipe s = .ok i t) :
    ∃ name, Helper.split.filter (s.pipe (s.reader r).pipe).media
        (s.pipe (s.reader r).pipe).describe = .ok name ∧ i = s.stages.size ∧
      t = (s.attach (s.reader r).pipe name).moveTo s.stages.size s.operations.size d := by
  simp only [insertSplitter,bind_ok,get_ok,and_assoc,exists_and_left,exists_eq_left] at called
  cases kind : Helper.split.filter (s.pipe (s.reader r).pipe).media
      (s.pipe (s.reader r).pipe).describe with
  | error e => simp [kind,throw_ok] at called
  | ok name =>
    refine ⟨name,rfl,?_⟩
    simp only [kind,bind_ok,modify_ok,get_ok,pure_ok,and_assoc,exists_and_left,exists_eq_left] at called
    obtain ⟨_,_,_,moved,rfl,rfl⟩ := called
    rw [attach_eq,directReaders_attach sound idle own takes] at moved
    simp only [moveReaders,bind_ok,modify_ok,pure_ok] at moved
    obtain ⟨out,u,branched,_,_,rfl,_,rfl⟩ := moved
    refine ⟨rfl,?_⟩
    have attached := sound.of_attach own first takes kind
    have reader : (s.attach (s.reader r).pipe name).reader d = s.reader d := by
      rw [reader_attach,if_neg (Nat.ne_of_lt (inside_of_resolved takes.1))]
    have points : ((s.attach (s.reader r).pipe name).reader d).pipe = (s.reader r).pipe := by
      rw [reader,takes.2.2]
    have behind : ((s.attach (s.reader r).pipe name).pipe (s.reader r).pipe).splitter =
        some s.stages.size := by
      rw [pipe_attach s _ name _ (sound.reading.pipe_inside takes),if_pos rfl]
    obtain ⟨o,x,duplicates⟩ := attached.splitting _ _ behind
    have same : o = s.operations.size := by
      have holds := duplicates.holds
      rw [stage_attach,if_pos rfl] at holds
      exact (Option.some.inj holds).symm
    subst same
    have bound : ((s.attach (s.reader r).pipe name).reader d).pipe <
        (s.attach (s.reader r).pipe name).pipes.size :=
      attached.reading.inside d (attached.reading.waiting d (by simp))
    -- The reader has its turn behind it, and marking it changes nothing.
    have mine : (s.attach (s.reader r).pipe name).Duplicates
        ((s.attach (s.reader r).pipe name).reader d).pipe s.stages.size s.operations.size x := by
      rw [points]
      exact duplicates
    have marked := branchTo_ok mine bound branched
    obtain ⟨_,_,rfl⟩ := nextBranch_ok duplicates branched
    rw [markResolved_same (by change ((s.attach (s.reader r).pipe name).reader d).resolved = true
                              rw [reader]; exact takes.1)] at marked
    exact marked

/-- The reader that had the pipe is the first to read an output of the split that comes
behind it; the readers that wait are not touched. -/
theorem turns_attach (kept : Ledger.Kept ⟨s,put,took,r :: rest⟩) {d : Nat} {name : String}
    (idle : ∀ x ∈ r :: rest, (s.reader x).resolved = false)
    (own : (s.pipe (s.reader r).pipe).shared = false)
    (first : (s.pipe (s.reader r).pipe).splitter = none)
    (takes : s.Takes (r :: rest) d (s.reader r).pipe)
    (kind : Helper.split.filter (s.pipe (s.reader r).pipe).media
      (s.pipe (s.reader r).pipe).describe = .ok name)
    (moved : t = (s.attach (s.reader r).pipe name).moveTo s.stages.size s.operations.size d) :
    Turns ⟨s,put,took,r :: rest⟩ ⟨t,put,took,r :: rest⟩ ∧
      (∀ x ∈ r :: rest, t.reader x = s.reader x) ∧
      (t.pipe (s.reader r).pipe).splitter = some s.stages.size ∧
      (t.stage s.stages.size).operation = some s.operations.size ∧
      (t.stage s.stages.size).outputs.size = 1 := by
  let u := s.attach (s.reader r).pipe name
  have sound := kept.1
  have inside := sound.reading.pipe_inside takes
  have attached : Turn ⟨s,put,took,r :: rest⟩ ⟨u,put,took,d :: r :: rest⟩ :=
    .attach s put took r rest d name idle own first takes kind
  have soundU : Sound u (d :: r :: rest) := attached.sound sound
  have boundU : d < u.readers.size := soundU.reading.waiting d (by simp)
  have old (x : Nat) (before : x < s.readers.size) : u.reader x = s.reader x := by
    rw [reader_attach,if_neg (Nat.ne_of_lt before)]
  have taker : u.reader d = s.reader d := old d (inside_of_resolved takes.1)
  have behind : (u.pipe (s.reader r).pipe).splitter = some s.stages.size := by
    rw [splitter_attach s _ name _ inside,if_pos rfl]
  have stage : u.stage s.stages.size = ⟨some s.operations.size,[s.readers.size],#[],none,none⟩ := by
    rw [stage_attach,if_pos rfl]
  have holds : (u.stage s.stages.size).operation = some s.operations.size := by rw [stage]
  have grown := stage_moveTo u s.stages.size s.operations.size d s.stages.size
    (inside_of_holds (by simp [holds]))
  rw [if_pos rfl,stage,← moved] at grown
  have move := Turn.move u put took d (r :: rest) _ _ (by rw [taker,takes.2.2]; exact behind) holds
    (by simp [stage,outputLimit])
  have settled : u.settled d took = took := by simp [Session.settled,taker,takes.1]
  rw [settled,← moved] at move
  refine ⟨.tail (.single attached) move,fun x member => ?_,?_,by rw [grown],by simp [grown]⟩
  · have other : x ≠ d := fun same => takes.2.1 (same ▸ member)
    rw [moved,reader_moveTo u _ _ d x boundU,if_neg other,old x (sound.reading.waiting x member)]
  · rw [moved,splitter_moveTo u _ _ d _ (soundU.reading.inside d boundU)]
    exact behind

theorem turn_move (sound : Sound s (r :: rest)) {i o : Nat}
    (idle : ∀ x ∈ r :: rest, (s.reader x).resolved = false)
    (behind : (s.pipe (s.reader r).pipe).splitter = some i)
    (holds : (s.stage i).operation = some o) (room : (s.stage i).outputs.size < outputLimit) :
    Turn ⟨s,put,took,r :: rest⟩ ⟨s.moveTo i o r,put,took ++ [r],rest⟩ ∧
      ∀ x ∈ rest, (s.moveTo i o r).reader x = s.reader x := by
  have settled : s.settled r took = took ++ [r] := by
    have unresolved := idle r (by simp)
    simp [Session.settled,unresolved]
  rw [← settled]
  refine ⟨.move s put took r rest i o behind holds room,fun x member => ?_⟩
  have other : x ≠ r := fun same => (List.nodup_cons.mp sound.reading.once).1 (same ▸ member)
  rw [reader_moveTo s i o r x (sound.reading.waiting r (by simp)),if_neg other]

/-- A reader takes its pipe, or an output of the split behind it, or the split goes there
first and the reader that had the pipe moves. -/
theorem resolve_cases {u : Unit} (kept : Ledger.Kept ⟨s,put,took,r :: rest⟩)
    (idle : ∀ x ∈ r :: rest, (s.reader x).resolved = false) (called : resolve r s = .ok u t) :
    ((s.pipe (s.reader r).pipe).shared = true ∨ (s.pipe (s.reader r).pipe).taken = false) ∧
        t = s.takeDirect r ∨
      (∃ i o, (s.pipe (s.reader r).pipe).splitter = some i ∧ (s.stage i).operation = some o ∧
        (s.stage i).outputs.size < outputLimit ∧ t = s.moveTo i o r) ∨
      ∃ d name v, (s.pipe (s.reader r).pipe).shared = false ∧
        (s.pipe (s.reader r).pipe).splitter = none ∧ s.Takes (r :: rest) d (s.reader r).pipe ∧
        Helper.split.filter (s.pipe (s.reader r).pipe).media
          (s.pipe (s.reader r).pipe).describe = .ok name ∧
        v = (s.attach (s.reader r).pipe name).moveTo s.stages.size s.operations.size d ∧
        t = v.moveTo s.stages.size s.operations.size r := by
  have sound := kept.1
  have bound : r < s.readers.size := sound.reading.waiting r (by simp)
  simp only [resolve,bind_ok,get_ok,and_assoc,exists_and_left,exists_eq_left,choice_ok,
    modify_ok,Bool.or_eq_true,Bool.not_eq_true'] at called
  rcases called with ⟨free,_,_,taken,rfl⟩ | ⟨busy,out,u₁,branched,_,_,rfl,rfl⟩
  · rw [takePipe_ok taken]
    exact .inl ⟨free,rfl⟩
  obtain ⟨own,isTaken⟩ : (s.pipe (s.reader r).pipe).shared = false ∧
      (s.pipe (s.reader r).pipe).taken = true := by
    simpa [not_or] using busy
  simp only [branch,bind_ok,get_ok,and_assoc,exists_and_left,exists_eq_left] at branched
  cases behind : (s.pipe (s.reader r).pipe).splitter with
  | some i =>
    simp only [behind] at branched
    obtain ⟨o,x,duplicates⟩ := sound.splitting _ i behind
    exact .inr (.inl ⟨i,o,rfl,duplicates.holds,(nextBranch_ok duplicates branched).2.1,
      branchTo_ok duplicates (sound.reading.inside r bound) branched⟩)
  | none =>
    simp only [behind,bind_ok] at branched
    obtain ⟨i,v,inserted,branched⟩ := branched
    obtain ⟨d,takes⟩ := (sound.reading.taken _ own).mp isTaken
    obtain ⟨name,kind,rfl,moved⟩ := insertSplitter_ok sound idle own behind takes inserted
    obtain ⟨turns,same,behindV,holdsV,_⟩ := turns_attach kept idle own behind takes kind moved
    have soundV := (turns.moves.kept kept).1
    rw [← same r (by simp)] at behindV
    obtain ⟨o,x,duplicates⟩ := soundV.splitting _ _ behindV
    obtain rfl : o = s.operations.size := Option.some.inj (duplicates.holds.symm.trans holdsV)
    have boundV : r < v.readers.size := soundV.reading.waiting r (by simp)
    exact .inr (.inr ⟨d,name,v,own,rfl,takes,kind,moved,
      branchTo_ok duplicates (soundV.reading.inside r boundV) branched⟩)

theorem resolve_ok {u : Unit} (kept : Ledger.Kept ⟨s,put,took,r :: rest⟩)
    (idle : ∀ x ∈ r :: rest, (s.reader x).resolved = false) (called : resolve r s = .ok u t) :
    Turns ⟨s,put,took,r :: rest⟩ ⟨t,put,took ++ [r],rest⟩ ∧
      ∀ x ∈ rest, t.reader x = s.reader x := by
  have sound := kept.1
  have bound : r < s.readers.size := sound.reading.waiting r (by simp)
  rcases resolve_cases kept idle called with
    ⟨free,rfl⟩ | ⟨i,o,behind,holds,room,rfl⟩ | ⟨d,name,v,own,first,takes,kind,moved,rfl⟩
  · have settled : s.settled r took = took ++ [r] := by
      have unresolved := idle r (by simp)
      simp [Session.settled,unresolved]
    rw [← settled]
    refine ⟨.single (.take s put took r rest free),fun x member => ?_⟩
    have other : x ≠ r := fun same => (List.nodup_cons.mp sound.reading.once).1 (same ▸ member)
    rw [reader_takeDirect s r x bound,if_neg other]
  · obtain ⟨turn,later⟩ := turn_move sound idle behind holds room
    exact ⟨.single turn,later⟩
  · obtain ⟨turns,same,behind,holds,one⟩ := turns_attach kept idle own first takes kind moved
    have soundV := (turns.moves.kept kept).1
    rw [← same r (by simp)] at behind
    obtain ⟨turn,later⟩ := turn_move soundV
      (fun x member => (congrArg Reader.resolved (same x member)).trans (idle x member)) behind holds
      (by simp [one,outputLimit])
    exact ⟨turns.tail turn,fun x member => (later x member).trans (same x (by simp [member]))⟩

theorem resolveAll_turns {list waiting : List Nat} {u : Unit}
    (kept : Ledger.Kept ⟨s,put,took,list ++ waiting⟩)
    (idle : ∀ x ∈ list ++ waiting, (s.reader x).resolved = false)
    (called : resolveAll list s = .ok u t) :
    Turns ⟨s,put,took,list ++ waiting⟩ ⟨t,put,took ++ list,waiting⟩ ∧
      ∀ x ∈ waiting, t.reader x = s.reader x := by
  induction list generalizing s took with
  | nil =>
    obtain ⟨_,rfl⟩ := pure_ok.mp called
    rw [List.append_nil]
    exact ⟨.refl,fun _ _ => rfl⟩
  | cons r rest ih =>
    simp only [resolveAll,bind_ok] at called
    obtain ⟨_,v,resolved,called⟩ := called
    obtain ⟨turns,same⟩ := resolve_ok kept idle resolved
    obtain ⟨more,later⟩ := ih (turns.moves.kept kept)
      (fun x member => (congrArg Reader.resolved (same x member)).trans
        (idle x (List.mem_cons_of_mem r member))) called
    rw [List.append_assoc] at more
    exact ⟨turns.trans more,fun x member =>
      (later x member).trans (same x (List.mem_append_right _ member))⟩

theorem resolveAll_ok {list : List Nat} {u : Unit} (kept : Ledger.Kept ⟨s,put,took,list⟩)
    (idle : ∀ x ∈ list, (s.reader x).resolved = false) (called : resolveAll list s = .ok u t) :
    Turns ⟨s,put,took,list⟩ ⟨t,put,took ++ list,[]⟩ := by
  have turns : Turns ⟨s,put,took,list ++ []⟩ ⟨t,put,took ++ list,[]⟩ :=
    (resolveAll_turns (by simpa using kept) (by simpa using idle) called).1
  simpa using turns

end Turns
end MediaGraph.Session
