import TargetSelector.CommandLine

/-! The program: reads the input, runs, and writes what the run leaves behind. -/
namespace TargetSelector

namespace CommandLine

/-- An error while a file is opened has the negative of its usual code. -/
def ReadFailure.ofError : IO.Error → ReadFailure
  | .noFileOrDirectory .. => .missing
  | .permissionDenied .. => .denied
  | .inappropriateType _ code _ => if code = 20 || code = -20 then .throughFile else .directory
  | .invalidArgument _ code details =>
    if code = 36 || code = -36 then .longName else .other details
  | e => .other (toString e)

def readInput (o : Options) : IO (Except ReadFailure ByteArray) := do
  try
    match o.input with
    | some path => return .ok (← IO.FS.readBinFile path)
    | none => return .ok (← (← IO.getStdin).readBinToEnd)
  catch e => return .error (.ofError e)

end CommandLine

end TargetSelector

open TargetSelector CommandLine in
def main (args : List String) : IO UInt32 := do
  match Options.ofArgs? args with
  | none =>
    IO.eprint usage
    return 2
  | some o =>
    let some outcome := run o (← readInput o) | return 1
    let stdout ← IO.getStdout
    stdout.write ⟨outcome.stdout.toArray⟩
    stdout.flush
    IO.eprint outcome.stderr
    return outcome.status.toUInt32
