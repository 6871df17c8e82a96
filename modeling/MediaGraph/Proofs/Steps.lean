import MediaGraph.Proofs.Tables

/-! The steps that calls are made of.
Each step is one record, and what it does to a pipe, a reader, an operation or a
stage is read off it. A look-up that is not mentioned is not changed. -/
namespace MediaGraph.Session

def hold (i : Nat) (op : Operation) (s : Session) : Session :=
  { s with
    operations := s.operations.push op
    stages := s.stages.modify i fun stage => { stage with operation := some s.operations.size } }

def append (i : Nat) (op : Operation) (s : Session) : Session :=
  { s with
    operations := s.operations.push op
    stages := (s.stages.push ⟨some s.operations.size,[],#[],some i,none⟩).modify i fun stage =>
      { stage with next := some s.stages.size } }

def splice (a first : Nat) (s : Session) : Session :=
  { s with
    stages := (s.stages.modify a fun stage => { stage with next := some first }).modify first
      fun stage => { stage with prev := some a }
    roots := s.roots.filter (· != first) }

def feedPipes : List Nat → Session → Session
  | [], s => s
  | p :: rest, s => feedPipes rest (s.modifyPipe p fun pipe => { pipe with fed := true })

def putOutputs (i : Nat) (pipes : List Nat) (s : Session) : Session :=
  (s.feedPipes pipes).modifyStage i fun stage => { stage with outputs := pipes.toArray }

def takeDirect (r : Nat) (s : Session) : Session :=
  { s with
    pipes := s.pipes.modify (s.reader r).pipe fun p =>
      if p.shared then p else { p with taken := true }
    readers := s.readers.modify r fun reader => { reader with resolved := true } }

def attach (p : Nat) (name : String) (s : Session) : Session :=
  { s with
    pipes := s.pipes.modify p fun pipe =>
      { note [s.readers.size] pipe with splitter := some s.stages.size }
    readers := s.readers.push ⟨p,.stage s.stages.size,true⟩
    operations := s.operations.push ((Operation.named name).withArguments [.ofNat 0])
    stages := s.stages.push ⟨some s.operations.size,[s.readers.size],#[],none,none⟩
    roots := s.roots.push s.stages.size }

/-- A pipe that a reader leaves; an export takes the name along and leaves the
generated name of its new pipe. -/
def deserted (r : Nat) (owner : Owner) (fresh : String) (p : Pipe) : Pipe :=
  { p with
    name := if owner = .exported then fresh else p.name
    fixed := p.fixed && owner ≠ .exported
    readers := p.readers.filter (· != r) }

def branchFor (r : Nat) (owner : Owner) (fresh hint : String) (p : Pipe) : Pipe :=
  { name := if owner = .exported then p.name else fresh
    fixed := p.fixed && owner = .exported
    media := p.media
    fed := true
    taken := true
    shared := false
    hint := some hint
    readers := [r]
    splitter := none }

/-- A reader moves from its pipe to the next output of the split `i` behind it,
whose operation is number `o`. -/
def moveTo (i o r : Nat) (s : Session) : Session :=
  let n := (s.stage i).outputs.size
  let reader := s.reader r
  { s with
    pipes := (s.pipes.modify reader.pipe (deserted r reader.owner s.freshName)).push
      (branchFor r reader.owner s.freshName s!"{(s.operation o).name}.output.{n}"
        (s.pipe reader.pipe))
    readers := s.readers.modify r fun reader =>
      { reader with pipe := s.pipes.size, resolved := true }
    operations := s.operations.modify o fun op => op.withArguments [.ofNat (n + 1)]
    stages := s.stages.modify i fun stage =>
      { stage with outputs := stage.outputs.push s.pipes.size }
    counter := s.counter + 1 }

section LookUps
variable (s : Session)

theorem pipe_modifyPipe (i : Nat) (f : Pipe → Pipe) (q : Nat) :
    (s.modifyPipe i f).pipe q = if q = i ∧ q < s.pipes.size then f (s.pipe q) else s.pipe q :=
  getD_modify ..

theorem pipe_addPipe (p : Pipe) (q : Nat) :
    (s.addPipe p).pipe q = if q = s.pipes.size then p else s.pipe q :=
  getD_push ..

theorem pipe_addAnonymous (f : Pipe → Pipe) (q : Nat) :
    (s.addAnonymous f).pipe q =
      if q = s.pipes.size then f (.anonymous s.freshName) else s.pipe q :=
  getD_push ..

theorem operation_putArguments (o : Nat) (args : List Argument) (k : Nat) :
    (s.putArguments o args).operation k =
      if k = o ∧ k < s.operations.size then (s.operation k).withArguments args
      else s.operation k :=
  getD_modify ..

theorem reader_addReader (p : Nat) (owner : Owner) (r : Nat) :
    (s.addReader p owner).reader r =
      if r = s.readers.size then ⟨p,owner,false⟩ else s.reader r := by
  rw [addReader_eq]
  exact getD_push ..

theorem pipe_addReader (p : Nat) (owner : Owner) (q : Nat) :
    (s.addReader p owner).pipe q =
      if q = p ∧ q < s.pipes.size then note [s.readers.size] (s.pipe q) else s.pipe q := by
  rw [addReader_eq]
  exact getD_modify ..

theorem operation_hold (i : Nat) (op : Operation) (o : Nat) :
    (s.hold i op).operation o = if o = s.operations.size then op else s.operation o :=
  getD_push ..

theorem stage_hold (i : Nat) (op : Operation) (j : Nat) :
    (s.hold i op).stage j =
      if j = i ∧ j < s.stages.size then { s.stage j with operation := some s.operations.size }
      else s.stage j :=
  getD_modify ..

theorem operation_append (i : Nat) (op : Operation) (o : Nat) :
    (s.append i op).operation o = if o = s.operations.size then op else s.operation o :=
  getD_push ..

theorem stage_append (i : Nat) (op : Operation) (j : Nat) (inside : i < s.stages.size) :
    (s.append i op).stage j =
      if j = s.stages.size then ⟨some s.operations.size,[],#[],some i,none⟩
      else if j = i then { s.stage j with next := some s.stages.size }
      else s.stage j := by
  refine Eq.trans (getD_modify ..) ?_
  rw [getD_push,Array.size_push]
  by_cases last : j = s.stages.size
  · have apart : ¬(j = i ∧ j < s.stages.size + 1) := by omega
    rw [if_neg apart]
    simp only [last,if_true]
  · rw [if_neg last,if_neg last]
    by_cases same : j = i
    · rw [if_pos ⟨same,by omega⟩,if_pos same]
      rfl
    · rw [if_neg (fun both => same both.1),if_neg same]
      rfl

theorem stage_splice (a first : Nat) (j : Nat) (inside : a < s.stages.size)
    (other : first ≠ a) (present : first < s.stages.size) :
    (s.splice a first).stage j =
      if j = a then { s.stage j with next := some first }
      else if j = first then { s.stage j with prev := some a }
      else s.stage j := by
  refine Eq.trans (getD_modify ..) ?_
  rw [getD_modify,Array.size_modify]
  by_cases atA : j = a
  · have apart : ¬(j = first ∧ j < s.stages.size) := by omega
    rw [if_neg apart,if_pos atA,if_pos ⟨atA,by omega⟩]
    rfl
  · have apart : ¬(j = a ∧ j < s.stages.size) := fun both => atA both.1
    rw [if_neg apart,if_neg atA]
    by_cases atFirst : j = first
    · rw [if_pos ⟨atFirst,by omega⟩,if_pos atFirst]
      rfl
    · rw [if_neg (fun both => atFirst both.1),if_neg atFirst]
      rfl

theorem pipe_feedPipes (pipes : List Nat) (q : Nat) :
    (s.feedPipes pipes).pipe q =
      if q ∈ pipes ∧ q < s.pipes.size then { s.pipe q with fed := true } else s.pipe q := by
  induction pipes generalizing s with
  | nil => simp [feedPipes]
  | cons p rest ih =>
    have size : (s.modifyPipe p fun pipe => { pipe with fed := true }).pipes.size = s.pipes.size :=
      Array.size_modify
    rw [feedPipes,ih,pipe_modifyPipe,size]
    by_cases same : q = p
    · by_cases bound : q < s.pipes.size
      · simp only [same ▸ bound,same,List.mem_cons,true_or,and_true,if_true]
        split <;> rfl
      · simp only [bound,and_false,if_false]
    · simp only [same,List.mem_cons,false_or,false_and,if_false]

theorem feedPipes_eq (pipes : List Nat) :
    ∃ table : Array Pipe, table.size = s.pipes.size ∧
      s.feedPipes pipes = { s with pipes := table } := by
  induction pipes generalizing s with
  | nil => exact ⟨s.pipes,rfl,rfl⟩
  | cons p rest ih =>
    obtain ⟨table,size,equal⟩ := ih (s.modifyPipe p fun pipe => { pipe with fed := true })
    exact ⟨table,size.trans Array.size_modify,equal⟩

theorem pipe_putOutputs (i : Nat) (pipes : List Nat) (q : Nat) :
    (s.putOutputs i pipes).pipe q =
      if q ∈ pipes ∧ q < s.pipes.size then { s.pipe q with fed := true } else s.pipe q :=
  pipe_feedPipes ..

theorem stage_putOutputs (i : Nat) (pipes : List Nat) (j : Nat) (inside : i < s.stages.size) :
    (s.putOutputs i pipes).stage j =
      if j = i then { s.stage j with outputs := pipes.toArray } else s.stage j := by
  obtain ⟨table,_,equal⟩ := feedPipes_eq s pipes
  rw [putOutputs,equal]
  exact getD_modify_at _ _ _ _ _ inside

theorem putOutputs_eq (i : Nat) (pipes : List Nat) :
    ∃ table : Array Pipe, table.size = s.pipes.size ∧
      s.putOutputs i pipes =
        { s with
          pipes := table
          stages := s.stages.modify i fun stage => { stage with outputs := pipes.toArray } } := by
  obtain ⟨table,size,equal⟩ := feedPipes_eq s pipes
  exact ⟨table,size,by rw [putOutputs,equal]; rfl⟩

theorem pipe_addOutput (i : Nat) (op : Operation) (q : Nat) :
    (s.addOutput i op).pipe q =
      if q = s.pipes.size then
        { Pipe.anonymous s.freshName with
          hint := some s!"{op.name}.output.{(s.stage i).outputs.size}"
          media := op.outputs.media (s.stage i).outputs.size
          fed := true }
      else s.pipe q :=
  getD_push ..

theorem stage_addOutput (i : Nat) (op : Operation) (j : Nat) (inside : i < s.stages.size) :
    (s.addOutput i op).stage j =
      if j = i then { s.stage j with outputs := (s.stage j).outputs.push s.pipes.size }
      else s.stage j :=
  getD_modify_at _ _ _ _ _ inside

theorem pipe_takeDirect (r q : Nat) (inside : (s.reader r).pipe < s.pipes.size) :
    (s.takeDirect r).pipe q =
      if q = (s.reader r).pipe then
        if (s.pipe q).shared then s.pipe q else { s.pipe q with taken := true }
      else s.pipe q :=
  getD_modify_at _ _ _ _ _ inside

theorem reader_takeDirect (r x : Nat) (inside : r < s.readers.size) :
    (s.takeDirect r).reader x =
      if x = r then { s.reader x with resolved := true } else s.reader x :=
  getD_modify_at _ _ _ _ _ inside

theorem pipe_attach (p : Nat) (name : String) (q : Nat) (inside : p < s.pipes.size) :
    (s.attach p name).pipe q =
      if q = p then { note [s.readers.size] (s.pipe q) with splitter := some s.stages.size }
      else s.pipe q :=
  getD_modify_at _ _ _ _ _ inside

theorem splitter_attach (p : Nat) (name : String) (q : Nat) (inside : p < s.pipes.size) :
    ((s.attach p name).pipe q).splitter =
      if q = p then some s.stages.size else (s.pipe q).splitter := by
  rw [pipe_attach s p name q inside]
  split <;> rfl

theorem reader_attach (p : Nat) (name : String) (x : Nat) :
    (s.attach p name).reader x =
      if x = s.readers.size then ⟨p,.stage s.stages.size,true⟩ else s.reader x :=
  getD_push ..

theorem operation_attach (p : Nat) (name : String) (o : Nat) :
    (s.attach p name).operation o =
      if o = s.operations.size then (Operation.named name).withArguments [.ofNat 0]
      else s.operation o :=
  getD_push ..

theorem stage_attach (p : Nat) (name : String) (j : Nat) :
    (s.attach p name).stage j =
      if j = s.stages.size then ⟨some s.operations.size,[s.readers.size],#[],none,none⟩
      else s.stage j :=
  getD_push ..

theorem pipe_moveTo (i o r q : Nat) (inside : (s.reader r).pipe < s.pipes.size) :
    (s.moveTo i o r).pipe q =
      if q = s.pipes.size then
        branchFor r (s.reader r).owner s.freshName
          s!"{(s.operation o).name}.output.{(s.stage i).outputs.size}" (s.pipe (s.reader r).pipe)
      else if q = (s.reader r).pipe then deserted r (s.reader r).owner s.freshName (s.pipe q)
      else s.pipe q := by
  refine Eq.trans (getD_push ..) ?_
  rw [getD_modify_at _ _ _ _ _ inside,Array.size_modify]
  rfl

theorem splitter_moveTo (i o r q : Nat) (inside : (s.reader r).pipe < s.pipes.size) :
    ((s.moveTo i o r).pipe q).splitter = (s.pipe q).splitter := by
  rw [pipe_moveTo s i o r q inside]
  split
  next last =>
    subst last
    simp [pipe,branchFor,Pipe.anonymous]
  next => split <;> rfl

theorem reader_moveTo (i o r x : Nat) (inside : r < s.readers.size) :
    (s.moveTo i o r).reader x =
      if x = r then { s.reader x with pipe := s.pipes.size, resolved := true }
      else s.reader x :=
  getD_modify_at _ _ _ _ _ inside

theorem operation_moveTo (i o r k : Nat) (inside : o < s.operations.size) :
    (s.moveTo i o r).operation k =
      if k = o then (s.operation k).withArguments [.ofNat ((s.stage i).outputs.size + 1)]
      else s.operation k :=
  getD_modify_at _ _ _ _ _ inside

theorem stage_moveTo (i o r j : Nat) (inside : i < s.stages.size) :
    (s.moveTo i o r).stage j =
      if j = i then { s.stage j with outputs := (s.stage j).outputs.push s.pipes.size }
      else s.stage j :=
  getD_modify_at _ _ _ _ _ inside

/-! A new placeholder. -/

theorem addChain_eq (pipes : List Nat) :
    s.addChain pipes =
      { s with
        pipes := noteAll s.readers.size pipes s.pipes
        readers :=
          s.readers ++ (pipes.map fun p => (⟨p,.stage s.stages.size,false⟩ : Reader)).toArray
        stages := s.stages.push ⟨none,List.range' s.readers.size pipes.length,#[],none,none⟩
        roots := s.roots.push s.stages.size } := by
  simp only [addChain,addReaders_eq,addStage,modifyStage,addRoot,modify_push]
  rfl

theorem pipes_size_addChain (pipes : List Nat) :
    (s.addChain pipes).pipes.size = s.pipes.size := by
  rw [addChain_eq]
  exact noteAll_size ..

theorem pipe_addChain {pipes : List Nat} (inside : ∀ p ∈ pipes, p < s.pipes.size) (q : Nat) :
    (s.addChain pipes).pipe q = note (placesOf q s.readers.size pipes) (s.pipe q) := by
  by_cases bound : q < s.pipes.size
  · rw [addChain_eq]
    exact getD_noteAll _ _ _ _ _ bound
  · have none : placesOf q s.readers.size pipes = [] := by
      refine List.eq_nil_iff_forall_not_mem.mpr fun r member => ?_
      obtain ⟨k,found,_⟩ := (mem_placesOf q _ pipes r).mp member
      exact bound (inside q (List.mem_of_getElem? found))
    have before : s.pipes.size ≤ q := Nat.le_of_not_lt bound
    have after : (s.addChain pipes).pipes.size ≤ q := by rwa [pipes_size_addChain]
    simp [none,note_nil,pipe,before,after]

theorem readers_size_addChain (pipes : List Nat) :
    (s.addChain pipes).readers.size = s.readers.size + pipes.length := by
  simp [addChain_eq]

theorem reader_addChain_old (pipes : List Nat) (x : Nat) (old : x < s.readers.size) :
    (s.addChain pipes).reader x = s.reader x := by
  simp [addChain_eq,reader,Array.getElem?_append_left old]

theorem reader_addChain_new (pipes : List Nat) (k : Nat) (new : k < pipes.length) :
    (s.addChain pipes).reader (s.readers.size + k) =
      ⟨pipes[k],.stage s.stages.size,false⟩ := by
  simp [addChain_eq,reader,new]

theorem reader_addChain_late (pipes : List Nat) (x : Nat) (low : s.readers.size ≤ x)
    (high : x < (s.addChain pipes).readers.size) :
    ∃ k, ∃ small : k < pipes.length, x = s.readers.size + k ∧
      (s.addChain pipes).reader x = ⟨pipes[k],.stage s.stages.size,false⟩ := by
  rw [readers_size_addChain] at high
  have shift : x = s.readers.size + (x - s.readers.size) := by omega
  have found := reader_addChain_new s pipes (x - s.readers.size) (by omega)
  rw [← shift] at found
  exact ⟨x - s.readers.size,by omega,shift,found⟩

theorem stage_addChain (pipes : List Nat) (j : Nat) :
    (s.addChain pipes).stage j =
      if j = s.stages.size then
        ⟨none,List.range' s.readers.size pipes.length,#[],none,none⟩
      else s.stage j := by
  rw [addChain_eq]
  exact getD_push ..

theorem stage_addChain_one (p : Nat) :
    (s.addChain [p]).stage s.stages.size = ⟨none,[s.readers.size],#[],none,none⟩ := by
  rw [stage_addChain,if_pos rfl]
  rfl

theorem stage_begun (p : Nat) (op : Operation) :
    ((s.addChain [p]).hold s.stages.size op).stage s.stages.size =
      ⟨some s.operations.size,[s.readers.size],#[],none,none⟩ := by
  have inside : s.stages.size < (s.addChain [p]).stages.size := by simp [addChain_eq]
  rw [stage_hold,if_pos ⟨rfl,inside⟩,stage_addChain_one,addChain_eq]

end LookUps
end MediaGraph.Session
