import MediaGraph.CommandLine.Run

/-! The program: compiles graph scripts and writes catalogs. -/
namespace MediaGraph.CommandLine

/-- The number of a fault; some come with their sign turned. -/
def faultNumber (code : UInt32) : Nat := if code < 0x80000000 then code.toNat else (0 - code).toNat

def FileFault.ofError : IO.Error → FileFault
  | .alreadyExists _ code text => ofCode (faultNumber code) text
  | .otherError code text => ofCode (faultNumber code) text
  | .resourceBusy code text => ofCode (faultNumber code) text
  | .resourceVanished code text => ofCode (faultNumber code) text
  | .unsupportedOperation code text => ofCode (faultNumber code) text
  | .hardwareFault code text => ofCode (faultNumber code) text
  | .unsatisfiedConstraints code text => ofCode (faultNumber code) text
  | .illegalOperation code text => ofCode (faultNumber code) text
  | .protocolError code text => ofCode (faultNumber code) text
  | .timeExpired code text => ofCode (faultNumber code) text
  | .interrupted _ code text => ofCode (faultNumber code) text
  | .noFileOrDirectory _ code text => ofCode (faultNumber code) text
  | .invalidArgument _ code text => ofCode (faultNumber code) text
  | .permissionDenied _ code text => ofCode (faultNumber code) text
  | .resourceExhausted _ code text => ofCode (faultNumber code) text
  | .inappropriateType _ code text => ofCode (faultNumber code) text
  | .noSuchThing _ code text => ofCode (faultNumber code) text
  | .unexpectedEof => ofCode 0 "unexpected end of file"
  | .userError text => ofCode 0 text

def readPath (path : String) : IO (Except FileFault String) := do
  match ← (IO.FS.readBinFile path).toBaseIO with
  | .error e => return .error (.ofError e)
  | .ok bytes =>
    match String.fromUTF8? bytes with
    | some text => return .ok text
    | none => return .error .notText

def writePath (path text : String) : IO (Except FileFault Unit) := do
  match ← (IO.FS.writeFile path text).toBaseIO with
  | .error e => return .error (.ofError e)
  | .ok () => return .ok ()

end MediaGraph.CommandLine

open MediaGraph.CommandLine in
def main (args : List String) : IO UInt32 := do
  let outcome ← run ⟨readPath, writePath⟩ args
  IO.print outcome.output
  IO.eprint outcome.errors
  return UInt32.ofNat outcome.code
