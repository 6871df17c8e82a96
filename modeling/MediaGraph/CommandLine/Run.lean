import MediaGraph.Catalog.Document
import MediaGraph.Catalog.Listing
import MediaGraph.CommandLine.Files
import MediaGraph.CommandLine.Request
import MediaGraph.Compile
import MediaGraph.Script.Build
import MediaGraph.Script.Document

/-! Running a request.
Files are reached through `Files`, so that the same run works on a real directory
and on one in memory. A failure is told with its causes. -/
namespace MediaGraph.CommandLine

structure Failure where
  what : String
  causes : List String
  deriving DecidableEq, Repr

/-- The lines of a cause after the first one are moved in below the first. -/
def moveIn (margin text : String) : String :=
  ("\n" ++ margin).intercalate (text.splitOn "\n")

def numbered (n : Nat) : List String → List String
  | [] => []
  | cause :: rest => (s!"    {n}: " ++ moveIn "       " cause) :: numbered (n + 1) rest

def Failure.text (failure : Failure) : String :=
  let causes :=
    match failure.causes with
    | [] => []
    | [cause] => ["    " ++ moveIn "    " cause]
    | causes => numbered 0 causes
  "\n".intercalate <|
    ("Error: " ++ failure.what) :: if causes.isEmpty then [] else "" :: "Caused by:" :: causes

structure Outcome where
  code : Nat
  output : String
  errors : String
  deriving DecidableEq, Repr

section
variable {m : Type → Type} [Monad m]

abbrev Run (m : Type → Type) := ExceptT Failure m

def fail {α : Type} (what : String) (causes : List String) : Run m α := throw ⟨what, causes⟩

def readFile (files : Files m) (what path : String) : Run m String := do
  match ← files.read path with
  | .ok text => return text
  | .error fault => fail s!"read {what} {path}" [fault.message]

def writeFile (files : Files m) (path text : String) : Run m String := do
  match ← files.write path text with
  | .ok () => return s!"Wrote {path}\n"
  | .error fault => fail fault.message []

def loadFilters (files : Files m) (path : String) : Run m (List FilterSpec) := do
  match Catalog.Listing.read (← readFile files "filter list" path) with
  | .ok specs => return specs
  | .error fault => fail s!"parse filter list {path}" fault.chain

def loadCatalog (files : Files m) : CatalogSource → Run m Catalog
  | .builtin => return .builtin
  | .document path => do
    match Catalog.Document.read (← readFile files "catalog file" path) with
    | .ok catalog => return catalog
    | .error fault => fail s!"load catalog {path}" ["parse catalog json", fault.message]
  | .listing path => return Catalog.builtin.extend (← loadFilters files path)

def loadScript (files : Files m) (path : String) : Run m Script := do
  match Script.read (← readFile files "graph script" path) with
  | .ok script => return script
  | .error fault => fail s!"load graph script {path}" ["parse graph script json", fault.message]

def compileScript (catalog : Catalog) (script : Script) : Except Failure String :=
  match script.build.run (.new 0 catalog) with
  | .error e _ => .error ⟨"build graph script", [e.message]⟩
  | .ok exports s =>
    match (Session.finish exports).run s with
    | .error e _ => .error ⟨"complete graph", [e.message]⟩
    | .ok text _ => .ok text

def perform (files : Files m) : Request → Run m String
  | .compile script source out => do
    let catalog ← loadCatalog files source
    let script ← loadScript files script
    let graph ← MonadExcept.ofExcept (compileScript catalog script)
    match out with
    | some path => writeFile files path graph
    | none => return graph ++ "\n"
  | .catalog filters out => do
    let catalog := Catalog.empty.extend (← loadFilters files filters)
    writeFile files out (Catalog.Document.write catalog).indented

def usage : String :=
  "Compile graph scripts into filtergraph text\n\n" ++
  "  compile --script <path> [--catalog <path> | --filters <path>] [-o <path>]\n" ++
  "  catalog --filters <path> -o <path>\n"

def run (files : Files m) (args : List String) : m Outcome := do
  match Request.read args with
  | .error .help => return ⟨0, usage, ""⟩
  | .error .misuse => return ⟨2, "", usage⟩
  | .ok request =>
    match ← (perform files request).run with
    | .ok output => return ⟨0, output, ""⟩
    | .error failure => return ⟨1, "", failure.text ++ "\n"⟩

end

end MediaGraph.CommandLine
