import LineScript.Command.Check

namespace LineScript

/-- A failure as the system numbers and words it. -/
structure SystemFailure where
  number : Nat
  reason : String

instance : TellsFailure SystemFailure where
  message failure path := failureText failure.number failure.reason path

/-- What the system says of an error, unless the error is none of the system's. -/
def SystemFailure.ofError? : IO.Error → Option SystemFailure
  | .alreadyExists _ code reason | .invalidArgument _ code reason | .permissionDenied _ code reason
  | .resourceExhausted _ code reason | .inappropriateType _ code reason | .noSuchThing _ code reason
  | .interrupted _ code reason | .noFileOrDirectory _ code reason | .otherError code reason
  | .resourceBusy code reason | .resourceVanished code reason | .unsupportedOperation code reason
  | .hardwareFault code reason | .unsatisfiedConstraints code reason | .illegalOperation code reason
  | .protocolError code reason | .timeExpired code reason => some ⟨code.toNat, reason⟩
  | .unexpectedEof | .userError _ => none

/-- Read a file of this machine. -/
def readContents (path : String) : IO (Except SystemFailure Contents) := do
  try
    let bytes ← IO.FS.readBinFile path
    return .ok (.bytes bytes.toList)
  catch error =>
    match SystemFailure.ofError? error with
    | some failure => return .error failure
    | none => throw error

/-- The variables of this machine that the settings look at. -/
def readVariables : IO Variables := do
  let names := ["CURAGE_LOG_LEVEL", "CURAGE_BLOCK_SCOPING", "CURAGE_LS_HOST", "CURAGE_LS_PORT"]
  let texts ← names.filterMapM fun name => do return (← IO.getEnv name).map (name, ·)
  return ⟨texts⟩

/-- Check the files of this machine. -/
def checkMachine (arguments : List String) : IO UInt32 := do
  let vars ← readVariables
  let found ← (Check.files arguments).mapM fun path => do return (path, ← readContents path)
  let openFile (path : String) : Except SystemFailure Contents :=
    ((found.find? (·.1 = path)).map (·.2)).getD (.error ⟨2, OpenFailure.missing.reason⟩)
  match Check.run arguments vars openFile with
  | .error fault => throw (IO.userError fault.message)
  | .ok report =>
    IO.print report.output
    IO.eprint report.errors
    match report.ending with
    | .exit status => return status.toUInt32
    | .escape _ => return 1

end LineScript

def main (arguments : List String) : IO UInt32 := LineScript.checkMachine arguments
