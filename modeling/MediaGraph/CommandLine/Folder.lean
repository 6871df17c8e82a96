import MediaGraph.CommandLine.Files
import MediaGraph.Text.Blank

/-! A working directory in memory.
Paths are followed name by name. The working directory holds files and nothing else and
lies among the temporary files; around it stand the directories and devices that every
system has. Files can be written there too, but they are not kept. -/
namespace MediaGraph.CommandLine

/-- The files of a directory by name, and what was written to the output meanwhile. -/
structure Folder where
  files : List (String × String)
  printed : String
  deriving DecidableEq, Repr

inductive Device where
  /-- Empty. Standard input is like it, and so are the errors of a run that succeeds. -/
  | null
  | zero
  | full
  | output
  deriving DecidableEq, Repr

namespace Device

def named? : String → Option Device
  | "null" | "stdin" | "stderr" => some null
  | "zero" | "random" | "urandom" => some zero
  | "full" => some full
  | "stdout" => some output
  | _ => none

def content : Device → Except FileFault String
  | null => .ok ""
  | _ => .error .endless

def written (folder : Folder) (text : String) : Device → Except FileFault Folder
  | full => if text.isEmpty then .ok folder else .error .noSpace
  | output => .ok { folder with printed := folder.printed ++ text }
  | _ => .ok folder

end Device

inductive Spot where
  /-- A directory, told by the names from it up to the root. -/
  | directory (up : List String)
  | file (name : String)
  | device (device : Device)
  | free (name : Option String)
  deriving DecidableEq, Repr

namespace Spot

def root : Spot := directory []

/-- The names up from the working directory. No path can say its own name. -/
def workingDirectory : List String := ["", "tmp"]

def standing : List (List String) :=
  [["bin"], ["boot"], ["dev"], ["shm", "dev"], ["etc"], ["home"], ["lib"],
    ["media"], ["mnt"], ["opt"], ["proc"], ["root"], ["run"], ["sbin"], ["srv"], ["sys"],
    ["tmp"], ["usr"], ["var"]]

def longestName : Nat := 255

def within (folder : Folder) (up : List String) (name : String) : Spot :=
  if up = workingDirectory then
    if (folder.files.lookup name).isSome then file name else free (some name)
  else if standing.contains (name :: up) then directory (name :: up)
  else if up = ["dev"] then ((Device.named? name).map device).getD (free none)
  else free none

def requireDirectory : Spot → Except FileFault (List String)
  | directory up => .ok up
  | file _ => .error .notADirectory
  | device _ => .error .notADirectory
  | free _ => .error .missing

def enter (folder : Folder) (spot : Spot) (name : String) : Except FileFault Spot := do
  let up ← spot.requireDirectory
  if name = "." then return spot
  else if name = ".." then return directory up.tail
  else if name.utf8ByteSize > longestName then throw .nameTooLong
  else return within folder up name

end Spot

namespace Folder

def pathLimit : Nat := 4096

def requirePath (path : String) : Except FileFault Unit :=
  if path.isEmpty then .error .missing
  else if path.utf8ByteSize ≥ pathLimit then .error .nameTooLong
  else .ok ()

def names (path : String) : List String :=
  ((Text.cut '/' path.toList).map String.ofList).filter fun name => name != ""

def follow (folder : Folder) (path : String) (names : List String) : Except FileFault Spot :=
  names.foldlM (Spot.enter folder)
    (if path.toList.head? = some '/' then .root else .directory Spot.workingDirectory)

def asksDirectory (path : String) : Bool :=
  let last := (names path).getLast?.getD "."
  path.toList.getLast? = some '/' && last != "." && last != ".."

def content (folder : Folder) (path : String) : Except FileFault String := do
  requirePath path
  match ← folder.follow path (names path) with
  | .directory _ => throw .isADirectory
  | .free _ => throw .missing
  | .device device => if asksDirectory path then throw .notADirectory else device.content
  | .file name =>
    if asksDirectory path then throw .notADirectory
    match folder.files.lookup name with
    | some text => return text
    | none => throw .missing

/-- The folder after a text is written to a path. What asks for a directory is
refused before its last name is looked at. -/
def written (folder : Folder) (path text : String) : Except FileFault Folder := do
  requirePath path
  if asksDirectory path then
    let _ ← (← folder.follow path (names path).dropLast).requireDirectory
    throw .isADirectory
  match ← folder.follow path (names path) with
  | .directory _ => throw .isADirectory
  | .device device => device.written folder text
  | .file name =>
    let others := folder.files.filter fun file => file.1 != name
    return { folder with files := (name, text) :: others }
  | .free (some name) => return { folder with files := (name, text) :: folder.files }
  | .free none => return folder

def read (path : String) : StateM Folder (Except FileFault String) :=
  return (← get).content path

def write (path text : String) : StateM Folder (Except FileFault Unit) := do
  match (← get).written path text with
  | .ok folder => set folder; return .ok ()
  | .error fault => return .error fault

def access : Files (StateM Folder) := ⟨read, write⟩

end Folder
end MediaGraph.CommandLine
