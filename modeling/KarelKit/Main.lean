import KarelKit.Command.Run

namespace KarelKit.Command

/-- The system's words for an error, and its number. -/
def systemReason (code : UInt32) (details : String) : String :=
  let number := if code.toNat < 0x80000000 then code.toNat else 0x100000000 - code.toNat
  s!"{details.capitalize} (os error {number})"

def unreadable : IO.Error → String
  | .noFileOrDirectory _ code details => systemReason code details
  | .inappropriateType _ code details => systemReason code details
  | .permissionDenied _ code details => systemReason code details
  | .invalidArgument _ code details => systemReason code details
  | .otherError code details => systemReason code details
  | e => toString e

def readFile (name : String) : IO (Except String String) := do
  try
    return decodeText (← IO.FS.readBinFile name)
  catch e =>
    return .error (unreadable e)

def report (arguments : List String) : IO Report := do
  match Invocation.ofArguments arguments with
  | .error refusal => return refusal.report
  | .ok invocation => return invocation.run (← readFile invocation.task.file)

end KarelKit.Command

def main (arguments : List String) : IO UInt32 := do
  let report ← KarelKit.Command.report arguments
  IO.print report.stdout
  IO.eprint report.stderr
  return report.code.toUInt32
