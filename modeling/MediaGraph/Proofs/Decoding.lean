import MediaGraph.Session.Render

/-! Reading the text of a graph back.
The text becomes tokens first: what stands in brackets is one label, and a character
between apostrophes or behind a backslash is told from the same character as a mark.
Then chains and segments are cut at marks alone. -/
namespace MediaGraph

structure Shown where
  inputs : List String
  name : String
  id : Option String
  args : String
  outputs : List String
  deriving DecidableEq, Repr

def Segment.shown (segment : Segment) : Shown :=
  ⟨segment.inputs,segment.operation.name,segment.operation.id,segment.operation.args,
    segment.outputs⟩

namespace Decoding

inductive Token where
  | label (name : String)
  | mark (c : Char)
  | text (c : Char)
  | torn
  deriving DecidableEq, Repr

inductive Place where
  | outside
  | label (name : List Char)
  | quoted
  | escaped

def read : Place → List Char → List Token
  | .outside, [] => []
  | .label _, [] => [.torn]
  | .quoted, [] => [.torn]
  | .escaped, [] => [.torn]
  | .outside, c :: rest =>
    if c = '[' then read (.label []) rest
    else if c = '\'' then read .quoted rest
    else if c = '\\' then read .escaped rest
    else .mark c :: read .outside rest
  | .label name, c :: rest =>
    if c = ']' then .label (String.ofList name) :: read .outside rest
    else read (.label (name ++ [c])) rest
  | .quoted, c :: rest => if c = '\'' then read .outside rest else .text c :: read .quoted rest
  | .escaped, c :: rest => .text c :: read .outside rest

def labels : List Token → List String × List Token
  | .label name :: rest => ((name :: (labels rest).1),(labels rest).2)
  | rest => ([],rest)

/-- The marks up to the first one in `stop`. -/
def marks (stop : List Char) : List Token → List Char × List Token
  | .mark c :: rest =>
    if c ∈ stop then ([],.mark c :: rest) else ((c :: (marks stop rest).1),(marks stop rest).2)
  | rest => ([],rest)

def texts : List Token → List Char × List Token
  | .text c :: rest => ((c :: (texts rest).1),(texts rest).2)
  | rest => ([],rest)

def instance? : List Token → Option (List Char) × List Token
  | .mark '@' :: rest => (some (marks ['='] rest).1,(marks ['='] rest).2)
  | rest => (none,rest)

def arguments : List Token → List Char × List Token
  | .mark '=' :: rest => texts rest
  | rest => ([],rest)

def segment? (tokens : List Token) : Option Shown :=
  let (inputs,tokens) := labels tokens
  let (name,tokens) := marks ['@','='] tokens
  let (id,tokens) := instance? tokens
  let (args,tokens) := arguments tokens
  let (outputs,tokens) := labels tokens
  if name ≠ [] ∧ tokens = [] then
    some ⟨inputs,String.ofList name,id.map String.ofList,String.ofList args,outputs⟩
  else none

def chain? (tokens : List Token) : Option (List Shown) :=
  (tokens.splitOn (.mark ',')).mapM segment?

/-- The chains of a text, each with what its segments show. -/
def decode (text : String) : Option (List (List Shown)) :=
  let tokens := read .outside text.toList
  if tokens.isEmpty then some [] else (tokens.splitOn (.mark ';')).mapM chain?

/-! Tokens of what is printed. -/

/-- The characters that mean something in the grammar, apart from the at sign. -/
def reserved : List Char := ['[',']',',',';','=','\'','\\']

/-- An operation whose name and instance do not run into the grammar. Its arguments may
be any text. -/
def PlainOperation (op : Operation) : Prop :=
  op.name ≠ "" ∧ (∀ c ∈ op.name.toList, c ≠ '@' ∧ c ∉ reserved) ∧
    ∀ tag ∈ op.id, ∀ c ∈ tag.toList, c ∉ reserved

structure Plain (segment : Segment) : Prop where
  inputs : ∀ name ∈ segment.inputs, ']' ∉ name.toList
  outputs : ∀ name ∈ segment.outputs, ']' ∉ name.toList
  operation : PlainOperation segment.operation

def idTokens : Option String → List Token
  | some id => .mark '@' :: id.toList.map .mark
  | none => []

def argsTokens (args : String) : List Token :=
  if args.isEmpty then [] else .mark '=' :: args.toList.map .text

def operationTokens (op : Operation) : List Token :=
  op.name.toList.map .mark ++ (idTokens op.id ++ argsTokens op.args)

def tokensOf (segment : Segment) : List Token :=
  segment.inputs.map .label ++ operationTokens segment.operation ++ segment.outputs.map .label

section Reading
variable (rest : List Char)

theorem read_label {name : List Char} (before : List Char) (free : ']' ∉ name) :
    read (.label before) (name ++ ']' :: rest) =
      .label (String.ofList (before ++ name)) :: read .outside rest := by
  induction name generalizing before with
  | nil => simp [read]
  | cons c more ih =>
    simp only [List.mem_cons,not_or] at free
    rw [List.cons_append,read,if_neg (Ne.symm free.1),ih _ free.2,List.append_assoc]
    rfl

theorem read_quote (args : List Char) :
    read .outside (Argument.quote args ++ rest) = args.map .text ++ read .outside rest := by
  have both : read .outside (Argument.quoteFrom false args ++ rest) =
        args.map .text ++ read .outside rest ∧
      read .quoted (Argument.quoteFrom true args ++ rest) =
        args.map .text ++ read .outside rest := by
    induction args with
    | nil => simp [Argument.quoteFrom,read]
    | cons c more ih =>
      obtain ⟨outside,quoted⟩ := ih
      by_cases structural : Argument.isStructural c = true
      · simp [Argument.quoteFrom,structural,read,outside]
      · have plain : c ≠ '\'' := fun same => structural (by subst same; rfl)
        simp [Argument.quoteFrom,structural,read,plain,quoted]
  exact both.1

theorem read_mark {c : Char} (plain : c ∉ reserved) :
    read .outside (c :: rest) = .mark c :: read .outside rest := by
  simp only [reserved,List.mem_cons,not_or] at plain
  obtain ⟨bracket,_,_,_,_,quote,backslash,_⟩ := plain
  rw [read,if_neg bracket,if_neg quote,if_neg backslash]

theorem read_marks {list : List Char} (plain : ∀ c ∈ list, c ∉ reserved) :
    read .outside (list ++ rest) = list.map .mark ++ read .outside rest := by
  induction list with
  | nil => rfl
  | cons c more ih =>
    obtain ⟨first,later⟩ := List.forall_mem_cons.mp plain
    rw [List.cons_append,read_mark _ first,ih later]
    rfl

theorem read_labels {names : List String} (free : ∀ name ∈ names, ']' ∉ name.toList) :
    read .outside ((String.join (names.map bracketed)).toList ++ rest) =
      names.map .label ++ read .outside rest := by
  induction names with
  | nil => rfl
  | cons name more ih =>
    obtain ⟨first,later⟩ := List.forall_mem_cons.mp free
    have opened (after : List Char) : read .outside ((bracketed name).toList ++ after) =
        .label name :: read .outside after := by
      have inside := read_label after [] first
      simpa [bracketed,read] using inside
    rw [List.map_cons,String.join_cons,String.toList_append,List.append_assoc,opened,ih later]
    rfl

theorem read_operation {op : Operation} (plain : PlainOperation op) :
    read .outside (op.text.toList ++ rest) = operationTokens op ++ read .outside rest := by
  obtain ⟨_,name,id⟩ := plain
  rw [operationTokens,List.append_assoc,List.append_assoc]
  have target (after : List Char) : read .outside (op.target.toList ++ after) =
      op.name.toList.map .mark ++ (idTokens op.id ++ read .outside after) := by
    have named (after : List Char) := read_marks after fun c member => (name c member).2
    cases given : op.id with
    | none => simp [Operation.target,given,idTokens,named]
    | some tag =>
      have tagged := read_marks after (id tag given)
      simp [Operation.target,given,idTokens,named,read,tagged]
  by_cases bare : op.args.isEmpty = true
  · rw [Operation.text,if_pos bare,target,argsTokens,if_pos bare]
    rfl
  · rw [Operation.text,if_neg bare,String.toList_append,String.toList_append,List.append_assoc,
      List.append_assoc,target,argsTokens,if_neg bare,Argument.quoteText,String.toList_ofList]
    simp [read,read_quote]

theorem read_segment {segment : Segment} (plain : Plain segment) :
    read .outside (segment.text.toList ++ rest) = tokensOf segment ++ read .outside rest := by
  rw [Segment.text,String.toList_append,String.toList_append,List.append_assoc,List.append_assoc,
    read_labels _ plain.inputs,read_operation _ plain.operation,read_labels _ plain.outputs,tokensOf,
    List.append_assoc,List.append_assoc]

theorem read_intercalate {α : Type} (mark : Char) (items : List α) (text : α → List Char)
    {tokens : α → List Token}
    (plain : ∀ after, read .outside (mark :: after) = .mark mark :: read .outside after)
    (each : ∀ item ∈ items, ∀ after, read .outside (text item ++ after) =
      tokens item ++ read .outside after) :
    read .outside ([mark].intercalate (items.map text) ++ rest) =
      [Token.mark mark].intercalate (items.map tokens) ++ read .outside rest := by
  induction items with
  | nil => rfl
  | cons item more ih =>
    obtain ⟨first,later⟩ := List.forall_mem_cons.mp each
    cases more with
    | nil => simpa using first rest
    | cons next more =>
      have tail := ih later
      simp only [List.map_cons] at tail ⊢
      rw [List.intercalate_cons_cons,List.intercalate_cons_cons,List.append_assoc,List.append_assoc,
        first,List.singleton_append,plain,tail]
      simp

end Reading

section Parsing

theorem labels_map (names : List String) {rest : List Token} (free : labels rest = ([],rest)) :
    labels (names.map .label ++ rest) = (names,rest) := by
  induction names with
  | nil => exact free
  | cons name more ih => rw [List.map_cons,List.cons_append,labels,ih]

theorem marks_map {stop list : List Char} {rest : List Token} (apart : ∀ c ∈ list, c ∉ stop)
    (stops : marks stop rest = ([],rest)) : marks stop (list.map .mark ++ rest) = (list,rest) := by
  induction list with
  | nil => exact stops
  | cons c more ih =>
    obtain ⟨first,later⟩ := List.forall_mem_cons.mp apart
    rw [List.map_cons,List.cons_append,marks,if_neg first,ih later]

theorem texts_map (list : List Char) {rest : List Token} (stops : texts rest = ([],rest)) :
    texts (list.map .text ++ rest) = (list,rest) := by
  induction list with
  | nil => exact stops
  | cons c more ih => rw [List.map_cons,List.cons_append,texts,ih]

theorem tail_cases (args : String) (names : List String) :
    argsTokens args ++ names.map .label = [] ∨
      (∃ more, argsTokens args ++ names.map .label = .mark '=' :: more) ∨
      ∃ name more, argsTokens args ++ names.map .label = .label name :: more := by
  by_cases bare : args.isEmpty = true
  · rw [argsTokens,if_pos bare]
    cases names with
    | nil => exact .inl rfl
    | cons name more => exact .inr (.inr ⟨name,_,rfl⟩)
  · rw [argsTokens,if_neg bare]
    exact .inr (.inl ⟨_,rfl⟩)

theorem arguments_tail (args : String) (names : List String) :
    arguments (argsTokens args ++ names.map .label) = (args.toList,names.map .label) := by
  by_cases bare : args.isEmpty = true
  · rw [argsTokens,if_pos bare,String.isEmpty_iff.mp bare]
    cases names <;> rfl
  · rw [argsTokens,if_neg bare,List.cons_append,arguments]
    exact texts_map _ (by cases names <;> rfl)

theorem instance?_tail {id : Option String} (plain : ∀ tag ∈ id, ∀ c ∈ tag.toList, c ∉ reserved)
    (args : String) (names : List String) :
    instance? (idTokens id ++ (argsTokens args ++ names.map .label)) =
      (id.map String.toList,argsTokens args ++ names.map .label) := by
  cases id with
  | none =>
    rcases tail_cases args names with tail | ⟨more,tail⟩ | ⟨name,more,tail⟩ <;>
      simp [idTokens,tail,instance?]
  | some tag =>
    have apart (c : Char) (member : c ∈ tag.toList) : c ∉ ['='] := fun same =>
      plain tag rfl c member (by simp [List.mem_singleton.mp same,reserved])
    have stops : marks ['='] (argsTokens args ++ names.map .label) =
        ([],argsTokens args ++ names.map .label) := by
      rcases tail_cases args names with tail | ⟨more,tail⟩ | ⟨name,more,tail⟩ <;>
        simp [tail,marks]
    rw [idTokens,List.cons_append,instance?,marks_map apart stops]
    rfl

theorem segment?_tokensOf {segment : Segment} (plain : PlainOperation segment.operation) :
    segment? (tokensOf segment) = some segment.shown := by
  obtain ⟨inputs,⟨name,id,args,pads⟩,outputs⟩ := segment
  obtain ⟨named,plainName,plainId⟩ := plain
  have shape : tokensOf ⟨inputs,⟨name,id,args,pads⟩,outputs⟩ = inputs.map .label ++
      (name.toList.map .mark ++ (idTokens id ++ (argsTokens args ++ outputs.map .label))) := by
    simp [tokensOf,operationTokens]
  have letters : name.toList ≠ [] := by simpa using named
  have front : labels (name.toList.map .mark ++ (idTokens id ++ (argsTokens args ++
      outputs.map .label))) = ([],name.toList.map .mark ++ (idTokens id ++ (argsTokens args ++
      outputs.map .label))) := by
    obtain ⟨c,more,shape⟩ := List.exists_cons_of_ne_nil letters
    rw [shape]
    rfl
  have apart (c : Char) (member : c ∈ name.toList) : c ∉ ['@','='] := by
    obtain ⟨sign,plain⟩ := plainName c member
    simp only [reserved,List.mem_cons,not_or] at plain ⊢
    exact ⟨sign,plain.2.2.2.2.1,by simp⟩
  have stops : marks ['@','='] (idTokens id ++ (argsTokens args ++ outputs.map .label)) =
      ([],idTokens id ++ (argsTokens args ++ outputs.map .label)) := by
    cases id with
    | none =>
      rcases tail_cases args outputs with tail | ⟨more,tail⟩ | ⟨name,more,tail⟩ <;>
        simp [idTokens,tail,marks]
    | some tag => rfl
  have back : labels (outputs.map .label) = (outputs,[]) := by
    rw [← List.append_nil (outputs.map Token.label)]
    exact labels_map outputs rfl
  simp only [shape,segment?,labels_map inputs front,marks_map apart stops,instance?_tail plainId,
    arguments_tail,back]
  simp [letters,Segment.shown,Function.comp_def]

theorem separator_not_mem {segment : Segment} (plain : PlainOperation segment.operation) {c : Char}
    (cuts : c = ',' ∨ c = ';') : .mark c ∉ tokensOf segment := by
  obtain ⟨_,name,id⟩ := plain
  have listed : c ∈ reserved := by rcases cuts with rfl | rfl <;> decide
  have signs : c ≠ '@' ∧ c ≠ '=' := by rcases cuts with rfl | rfl <;> decide
  have tag : .mark c ∉ idTokens segment.operation.id := by
    cases given : segment.operation.id with
    | none => simp [idTokens]
    | some tag =>
      have free : c ∉ tag.toList := fun member => id tag given c member listed
      simp [idTokens,signs.1,free]
  have args : .mark c ∉ argsTokens segment.operation.args := by
    unfold argsTokens
    split <;> simp [signs.2]
  have letters : c ∉ segment.operation.name.toList := fun member => (name c member).2 listed
  simp [tokensOf,operationTokens,tag,args,letters]

theorem mem_intercalate {α : Type} {x mark : α} {pieces : List (List α)}
    (member : x ∈ [mark].intercalate pieces) : x = mark ∨ ∃ piece ∈ pieces, x ∈ piece := by
  induction pieces with
  | nil => cases member
  | cons piece more ih =>
    by_cases last : more = []
    · rw [last,List.intercalate_singleton] at member
      exact .inr ⟨piece,by simp,member⟩
    · rw [List.intercalate_cons_of_ne_nil last] at member
      simp only [List.mem_append,List.mem_singleton] at member
      grind

theorem mapM_some {α β : Type} {f : α → Option β} {g : α → β} {items : List α}
    (each : ∀ item ∈ items, f item = some (g item)) : items.mapM f = some (items.map g) := by
  induction items with
  | nil => rfl
  | cons item more ih =>
    obtain ⟨first,later⟩ := List.forall_mem_cons.mp each
    simp [List.mapM_cons,first,ih later]

def chainTokens (chain : List Segment) : List Token :=
  [Token.mark ','].intercalate (chain.map tokensOf)

theorem chain?_tokens {chain : List Segment} (plain : ∀ segment ∈ chain, Plain segment)
    (full : chain ≠ []) : chain? (chainTokens chain) = some (chain.map Segment.shown) := by
  have cut : (chainTokens chain).splitOn (.mark ',') = chain.map tokensOf := by
    refine List.splitOn_intercalate _ (fun tokens member => ?_) (by simpa using full)
    obtain ⟨segment,listed,rfl⟩ := List.mem_map.mp member
    exact separator_not_mem (plain segment listed).operation (Or.inl rfl)
  rw [chain?,cut,List.mapM_map]
  exact mapM_some fun segment member => segment?_tokensOf (plain segment member).operation

theorem chains_tokens {chains : List (List Segment)} (full : ∀ chain ∈ chains, chain ≠ [])
    (plain : ∀ chain ∈ chains, ∀ segment ∈ chain, Plain segment) (present : chains ≠ []) :
    (([Token.mark ';'].intercalate (chains.map chainTokens)).splitOn (.mark ';')).mapM chain? =
      some (chains.map fun chain => chain.map Segment.shown) := by
  have cut : ([Token.mark ';'].intercalate (chains.map chainTokens)).splitOn (.mark ';') =
      chains.map chainTokens := by
    refine List.splitOn_intercalate _ (fun tokens member => ?_) (by simpa using present)
    obtain ⟨chain,listed,rfl⟩ := List.mem_map.mp member
    intro mark
    rcases mem_intercalate mark with same | ⟨tokens,inside,mark⟩
    · cases same
    · obtain ⟨segment,there,rfl⟩ := List.mem_map.mp inside
      exact separator_not_mem (plain chain listed segment there).operation (Or.inr rfl) mark
  rw [cut,List.mapM_map]
  exact mapM_some fun chain member => chain?_tokens (plain chain member) (full chain member)

end Parsing

theorem read_chains {chains : List (List Segment)}
    (plain : ∀ chain ∈ chains, ∀ segment ∈ chain, Plain segment) :
    read .outside (";".intercalate (chains.map fun chain =>
        ",".intercalate (chain.map Segment.text))).toList =
      [Token.mark ';'].intercalate (chains.map chainTokens) := by
  have inner (chain : List Segment) (member : chain ∈ chains) (rest : List Char) :
      read .outside ((",".intercalate (chain.map Segment.text)).toList ++ rest) =
        chainTokens chain ++ read .outside rest := by
    have pieces := read_intercalate rest ',' chain (fun segment => segment.text.toList)
      (by simp [read]) fun segment listed _ => read_segment _ (plain chain member segment listed)
    simpa [chainTokens,Function.comp_def] using pieces
  have pieces := read_intercalate [] ';' chains
    (fun chain => (",".intercalate (chain.map Segment.text)).toList) (by simp [read]) inner
  simpa [read,Function.comp_def] using pieces

def caption : Operation := ⟨"drawtext",some "t@1","text='a,b';[c]\\",.dynamic⟩

def captioned : Session :=
  (Session.new 0 .empty).addPipe (.named "in;0")
    |>.addChain [0]
    |>.addOperation caption
    |>.modifyStage 0 fun stage => { stage with operation := some 0 }

end Decoding
end MediaGraph
