import PathSlice.CommandLine.Run

/-! The command: reads the options and the trace files, replays the traces and prints what it finds.
-/
namespace PathSlice

open CommandLine (FileFault)

/-- The code of a fault, which some calls report with its sign changed. -/
def faultCode (code : UInt32) : Nat :=
  if code < 0x80000000 then code.toNat else (0 - code).toNat

def fileFault : IO.Error → FileFault
  | .noFileOrDirectory .. | .noSuchThing .. => .notFound
  | .inappropriateType _ code details | .permissionDenied _ code details
  | .invalidArgument _ code details =>
    (FileFault.ofCode? (faultCode code)).getD ⟨faultCode code, "Other", details⟩
  | e => ⟨0, "Other", toString e⟩

def readTrace (name : String) : IO (Except FileFault String) := do
  try
    return .ok (← IO.FS.readFile name)
  catch e => return .error (fileFault e)

end PathSlice

open PathSlice in
def main (args : List String) : IO UInt32 := do
  let outcome ←
    match CommandLine.readOptions (← IO.getEnv "SLICER_FLAGS") args with
    | .error outcome => pure outcome
    | .ok options =>
      let files ← options.traces.mapM fun name => return (name, ← readTrace name)
      pure (CommandLine.replayAll options files 1 0 {})
  (← IO.getStdout).putStr outcome.out
  (← IO.getStderr).putStr outcome.err
  return outcome.code.toUInt32
