import MediaGraph.Proofs.Chaining

/-! What putting a chain behind another one does.
A stage that ends its chain gets the whole chain of another stage behind it, from the first
stage of that one on. The two have to be different chains; nothing else can keep them apart,
and nothing but the links of two stages and the list of roots is touched. -/
namespace MediaGraph.Session

def sequences (s : Session) : List (List Nat) := s.roots.toList.map s.sequence

/-- The chain has something that the text shows. -/
def shows (s : Session) (chain : List Nat) : Bool :=
  chain.any fun i => (s.stage i).operation.isSome

def chainText (s : Session) (chain : List Nat) : String :=
  ",".intercalate ((chain.filter fun i => (s.stage i).operation.isSome).map s.stageText)

def chainTexts (s : Session) : List String := (s.sequences.filter s.shows).map s.chainText

section Texts
variable {s t : Session} {chains : List (List Nat)}

theorem shows_eq (chain : List Nat) :
    s.shows chain = !(chain.filter fun i => (s.stage i).operation.isSome).isEmpty := by
  induction chain with
  | nil => rfl
  | cons i rest ih =>
    rw [shows] at ih
    cases held : (s.stage i).operation <;> simp [shows,held,ih]

theorem Layout.eq_sequences (layout : Layout s chains) : chains = s.sequences := by
  rw [sequences,← layout.heads_eq,layout.sequences_eq]

theorem Layout.render_chainTexts (layout : Layout s chains) :
    s.render = ";".intercalate s.chainTexts := by
  rw [layout.render_eq,shown,chainTexts,sequences,List.filter_map,List.filter_map,List.map_map,
    List.map_map]
  simp only [Function.comp_def,shows_eq,chainText]

theorem chainText_append {first second : List Nat} (seen : s.shows first = true) :
    s.chainText (first ++ second) =
      s.chainText first ++ if s.shows second then "," ++ s.chainText second else "" := by
  rw [shows_eq,Bool.not_eq_true',List.isEmpty_eq_false_iff] at seen
  rw [chainText,chainText,List.filter_append,List.map_append,shows_eq]
  cases hidden : (second.filter fun i => (s.stage i).operation.isSome).isEmpty with
  | true => simp [List.isEmpty_iff.mp hidden]
  | false =>
    rw [List.isEmpty_eq_false_iff] at hidden
    rw [String.intercalate_append_of_ne_nil (by simpa using seen) (by simpa using hidden),
      String.append_assoc]
    rfl

theorem chainTexts_joined {first second : List Nat} (seen : s.shows first = true) :
    ((joined first second s.sequences).filter s.shows).map s.chainText =
      ((s.sequences.filter (· != second)).filter s.shows).map fun chain =>
        if chain = first then
          s.chainText first ++ if s.shows second then "," ++ s.chainText second else ""
        else s.chainText chain := by
  have still : (s.shows ∘ fun chain => if chain = first then chain ++ second else chain) =
      s.shows := by
    funext chain
    rw [Function.comp_apply]
    split
    next same =>
      rw [same,seen]
      simp only [shows] at seen ⊢
      rw [List.any_append,seen,Bool.true_or]
    next => rfl
  rw [joined,List.filter_map,still,List.map_map]
  apply List.map_congr_left
  intro chain _
  rw [Function.comp_apply]
  split
  next same => rw [same,chainText_append seen]
  next => rfl

end Texts

section Links
variable {s t : Session} {chains : List (List Nat)} {a b : Nat}

theorem Layout.sequence_head (layout : Layout s chains) (inside : b < s.stages.size) :
    s.sequence (s.head b) ∈ chains ∧ b ∈ s.sequence (s.head b) := by
  obtain ⟨chain,member,present⟩ := layout.chain_of inside
  obtain ⟨back,rfl⟩ := layout.starts_at_head member present
  rw [layout.sequence_eq member]
  exact ⟨member,present⟩

def Apart (s : Session) (a b : Nat) : Prop := ∀ chain ∈ s.sequences, a ∈ chain → b ∉ chain

theorem Layout.apart_iff (layout : Layout s chains) (inside : b < s.stages.size) :
    s.Apart a b ↔ a ∉ s.sequence (s.head b) := by
  obtain ⟨member,present⟩ := layout.sequence_head inside
  rw [Apart,← layout.eq_sequences]
  constructor
  · intro apart together
    exact apart _ member together present
  · intro apart chain listed first second
    exact apart (layout.chain_unique listed member second present ▸ first)

/-- In `t` the chain of `b` stands behind the chain of `a`, and all else is as it is in `s`. -/
structure Spliced (s t : Session) (a b : Nat) : Prop where
  chains : ∃ first second, first ∈ s.sequences ∧ a ∈ first ∧ second ∈ s.sequences ∧ b ∈ second ∧
    t.sequences = joined first second s.sequences ∧
    t.chainTexts = ((s.sequences.filter (· != second)).filter s.shows).map fun chain =>
      if chain = first then
        s.chainText first ++ if s.shows second then "," ++ s.chainText second else ""
      else s.chainText chain
  before : s.render = ";".intercalate s.chainTexts
  after : t.render = ";".intercalate t.chainTexts
  stage : ∀ i, t.stage i = { s.stage i with prev := (t.stage i).prev, next := (t.stage i).next }
  rest : t = { s with stages := t.stages, roots := t.roots }

theorem link_error {source target : ChainId} {e : GraphError}
    (refused : link source target s = .error e t) : t = s := by
  simp only [link,requireOpen,stageIndex,requireTail,bind_error,bind_ok,get_error,get_ok,
    choice_error,choice_ok,throw_error,throw_ok,pure_error,pure_ok,modify_error,
    false_or,or_false,and_false,false_and,exists_false,and_assoc,exists_and_left,exists_eq_left,
    exists_const] at refused
  rcases refused with ⟨_,_,same⟩ | ⟨_,_,⟨_,_,same⟩ | ⟨_,⟨_,_,same⟩ | ⟨_,⟨_,_,same⟩ |
    ⟨_,⟨_,_,same⟩ | ⟨_,_,⟨_,_,same⟩ | ⟨_,_,_,same⟩⟩⟩⟩⟩⟩ <;> exact same

theorem shows_congr (same : ∀ i, (t.stage i).operation = (s.stage i).operation) :
    t.shows = s.shows := by
  funext chain
  simp only [shows,same]

theorem Layout.spliced (layout : Layout s chains) (insideA : a < s.stages.size)
    (insideB : b < s.stages.size) (holds : (s.stage a).operation ≠ none)
    (tail : (s.stage a).next = none) (apart : a ∉ s.sequence (s.head b)) :
    Spliced s (s.splice a (s.head b)) a b := by
  obtain ⟨front,memberA⟩ := layout.ends_with insideA tail
  obtain ⟨memberB,presentB⟩ := layout.sequence_head insideB
  obtain ⟨back,begins⟩ := layout.starts_at_head memberB presentB
  have differ : front ++ [a] ≠ s.sequence (s.head b) := by
    intro same
    exact apart (same ▸ by simp)
  have moved := layout.of_splice memberA (begins ▸ memberB) (begins ▸ differ)
  have other : s.head b ≠ a := by
    intro same
    rw [begins,same] at apart
    simp at apart
  have headInside : s.head b < s.stages.size := by
    apply layout.mem_flatten.mp
    exact List.mem_flatten.mpr ⟨_,memberB,begins ▸ by simp⟩
  have stage (i : Nat) := stage_splice s a (s.head b) i insideA other headInside
  have links (i : Nat) : (s.splice a (s.head b)).stage i =
      { s.stage i with
        prev := ((s.splice a (s.head b)).stage i).prev
        next := ((s.splice a (s.head b)).stage i).next } := by
    rw [stage]
    split
    · rfl
    · split <;> rfl
  have operation (i : Nat) : ((s.splice a (s.head b)).stage i).operation =
      (s.stage i).operation := by rw [links]
  have text : (s.splice a (s.head b)).stageText = s.stageText := by
    funext i
    simp only [stageText,segment?,operationAt,inputPipes]
    rw [links]
    rfl
  have texts : (s.splice a (s.head b)).chainText = s.chainText := by
    funext chain
    simp only [chainText,operation,text]
  have seen : s.shows (front ++ [a]) = true := by
    simp [shows,Option.isSome_iff_ne_none.mpr holds]
  rw [← begins,layout.eq_sequences] at moved
  constructor
  case chains =>
    refine ⟨front ++ [a],s.sequence (s.head b),?_,by simp,?_,presentB,moved.eq_sequences.symm,?_⟩
    · rwa [← layout.eq_sequences]
    · rwa [← layout.eq_sequences]
    · rw [chainTexts,← moved.eq_sequences,shows_congr operation,texts,chainTexts_joined seen]
  case before => exact layout.render_chainTexts
  case after => exact moved.render_chainTexts
  case stage => exact links
  case rest => rfl

/-- Whatever has been called before, a chain can be put behind a stage exactly if the stage
holds an operation, has nothing behind it and lies elsewhere; its own chain then goes on with
the other one, in the text as well, and a call that fails changes nothing. -/
theorem link_splices {serial : Nat} {catalog : Catalog} (runs : Runs (new serial catalog) s)
    (source target : ChainId) (sourceOwn : source.session = s.serial)
    (sourceInside : source.index < s.stages.size) (targetOwn : target.session = s.serial)
    (targetInside : target.index < s.stages.size) :
    ((∃ t, link source target s = .ok () t) ↔
      s.completed = false ∧ (s.stage source.index).operation ≠ none ∧
        (s.stage source.index).next = none ∧ (s.stage source.index).outputs = #[] ∧
        s.Apart source.index target.index) ∧
      (∀ t, link source target s = .ok () t → Spliced s t source.index target.index) ∧
      ∀ e t, link source target s = .error e t → t = s := by
  obtain ⟨⟨_,layout⟩,_⟩ :=
    chained_of_changes runs.changes ⟨[],.of_new serial catalog⟩ (.of_new serial catalog)
  refine ⟨?_,?_,fun _ _ => link_error⟩
  · rw [layout.apart_iff targetInside]
    constructor
    · rintro ⟨t,called⟩
      obtain ⟨isOpen,_,_,_,_,holds,tail,bare,apart,_⟩ := link_ok.mp called
      exact ⟨isOpen,holds,tail,bare,apart⟩
    · rintro ⟨isOpen,holds,tail,bare,apart⟩
      refine ⟨s.splice source.index (s.head target.index),link_ok.mpr ?_⟩
      exact ⟨isOpen,sourceOwn,sourceInside,targetOwn,targetInside,holds,tail,bare,apart,rfl⟩
  · intro t called
    obtain ⟨_,_,_,_,_,holds,tail,_,apart,rfl⟩ := link_ok.mp called
    exact layout.spliced sourceInside targetInside holds tail apart

/-- Three chains, of which the second has two stages and the third none with an operation. -/
def threeChains : List ((reply : Reply) × Call reply) :=
  [⟨_,.start []⟩,⟨_,.extend ⟨0,0⟩ (.named "testsrc")⟩,⟨_,.extend ⟨0,7⟩ (.named "lost")⟩,
    ⟨_,.start []⟩,⟨_,.extend ⟨0,1⟩ (.named "scale")⟩,⟨_,.extend ⟨0,1⟩ (.named "fps")⟩,
    ⟨_,.start []⟩]

/-- The second stage of a chain is named as the target, and the whole chain is moved. -/
theorem link_splices_whole : ∃ t,
    link ⟨0,0⟩ ⟨0,2⟩ (carryOut threeChains (new 0 .empty)) = .ok () t ∧
      Spliced (carryOut threeChains (new 0 .empty)) t 0 2 ∧
      t.sequences = [[0,1,2],[3]] ∧ t.render = "testsrc,scale,fps" := by
  have linked : succeeds (link ⟨0,0⟩ ⟨0,2⟩) (carryOut threeChains (new 0 .empty)) (fun _ t =>
      t.sequences == [[0,1,2],[3]] && t.render == "testsrc,scale,fps") = true := by decide +kernel
  obtain ⟨⟨⟩,t,called,facts⟩ := ok_of_succeeds linked
  simp only [Bool.and_eq_true,beq_iff_eq] at facts
  have splices := link_splices (runs_carryOut (.refl (new 0 .empty)) threeChains) ⟨0,0⟩ ⟨0,2⟩
    (by decide +kernel) (by decide +kernel) (by decide +kernel) (by decide +kernel)
  exact ⟨t,called,splices.2.1 t called,facts⟩

end Links
end MediaGraph.Session
