/-! The files that a run reads and writes. -/
namespace MediaGraph.CommandLine

inductive FileFault where
  | system (text : String) (code : Nat)
  | notText
  | endless
  deriving DecidableEq, Repr

namespace FileFault

def missing : FileFault := system "No such file or directory" 2

def notADirectory : FileFault := system "Not a directory" 20

def isADirectory : FileFault := system "Is a directory" 21

def noSpace : FileFault := system "No space left on device" 28

def nameTooLong : FileFault := system "File name too long" 36

/-- The fault with a number. The common ones have texts of their own, the others
are called `other`. -/
def ofCode (code : Nat) (other : String) : FileFault :=
  match code with
  | 2 => missing
  | 13 => system "Permission denied" 13
  | 20 => notADirectory
  | 21 => isADirectory
  | 28 => noSpace
  | 30 => system "Read-only file system" 30
  | 36 => nameTooLong
  | _ => system other code

def message : FileFault → String
  | system text code => s!"{text} (os error {code})"
  | notText => "stream did not contain valid UTF-8"
  | endless => "out of memory"

end FileFault

structure Files (m : Type → Type) where
  read : String → m (Except FileFault String)
  write : String → String → m (Except FileFault Unit)

end MediaGraph.CommandLine
