/-! What a command line asks for.
Options take a value each, may stand in any order and are given at most once. A
value that starts with a dash has to be joined to its option, a lone dash apart. -/
namespace MediaGraph.CommandLine

inductive CatalogSource where
  | builtin
  | document (path : String)
  | listing (path : String)
  deriving DecidableEq, Repr

inductive Request where
  | compile (script : String) (source : CatalogSource) (out : Option String)
  | catalog (filters out : String)
  deriving DecidableEq, Repr

inductive Refusal where
  | help
  | misuse
  deriving DecidableEq, Repr

inductive Word where
  | long (name : String) (value : Option String)
  | short (letter : Char) (rest : List Char)
  | separator
  | plain
  deriving DecidableEq, Repr

def Word.of (arg : String) : Word :=
  match arg.toList with
  | ['-'] => plain
  | ['-', '-'] => separator
  | '-' :: '-' :: rest =>
    let (name, value) := rest.span (· != '=')
    long (String.ofList name) (value.tail?.map String.ofList)
  | '-' :: letter :: rest => short letter rest
  | _ => plain

/-- The value that is joined to a short option, with or without an equals sign. -/
def joinedValue : List Char → Option String
  | [] => none
  | '=' :: value => some (String.ofList value)
  | value => some (String.ofList value)

structure Options where
  names : List String
  letters : List (Char × String)

def Options.find (options : Options) : Word → Except Refusal (String × Option String)
  | .long "help" none => .error .help
  | .long name value => if options.names.contains name then .ok (name, value) else .error .misuse
  | .short 'h' _ => .error .help
  | .short letter rest =>
    match options.letters.lookup letter with
    | some name => .ok (name, joinedValue rest)
    | none => .error .misuse
  | _ => .error .misuse

abbrev Given := List (String × String)

def Given.add (given : Given) (name value : String) : Except Refusal Given :=
  if (given.lookup name).isSome then .error .misuse else .ok ((name, value) :: given)

/-- Reads options up to the end; a separator may only stand last. -/
def Options.read (options : Options) (given : Given) : List String → Except Refusal Given
  | [] => .ok given
  | arg :: rest =>
    if Word.of arg = .separator then if rest.isEmpty then .ok given else .error .misuse
    else
      match options.find (Word.of arg) with
      | .error refusal => .error refusal
      | .ok (name, some value) =>
        match given.add name value with
        | .ok given => options.read given rest
        | .error refusal => .error refusal
      | .ok (name, none) =>
        match rest with
        | [] => .error .misuse
        | value :: more =>
          if Word.of value = .plain then
            match given.add name value with
            | .ok given => options.read given more
            | .error refusal => .error refusal
          else .error .misuse

def Given.need (given : Given) (name : String) : Except Refusal String :=
  match given.lookup name with
  | some value => .ok value
  | none => .error .misuse

def readCompile (args : List String) : Except Refusal Request := do
  let given ← Options.read ⟨["script", "catalog", "filters", "out"], [('o', "out")]⟩ [] args
  let script ← given.need "script"
  match given.lookup "catalog", given.lookup "filters" with
  | some _, some _ => .error .misuse
  | some path, none => return .compile script (.document path) (given.lookup "out")
  | none, some path => return .compile script (.listing path) (given.lookup "out")
  | none, none => return .compile script .builtin (given.lookup "out")

def readCatalog (args : List String) : Except Refusal Request := do
  let given ← Options.read ⟨["filters", "out"], [('o', "out")]⟩ [] args
  return .catalog (← given.need "filters") (← given.need "out")

def Request.read : List String → Except Refusal Request
  | "compile" :: args => readCompile args
  | "catalog" :: args => readCatalog args
  | ["help"] => .error .help
  | ["help", topic] =>
    if ["compile", "catalog", "help"].contains topic then .error .help else .error .misuse
  | first :: _ =>
    match Options.find ⟨[], []⟩ (Word.of first) with
    | .error refusal => .error refusal
    | .ok _ => .error .misuse
  | [] => .error .misuse

end MediaGraph.CommandLine
