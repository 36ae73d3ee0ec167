import Deasync.CommandLine.Session

namespace Deasync

-- Why the system did not open a file. Its code for a name that leads to a directory is 21; any other name of the
-- wrong type leads through a file.
def reasonOf : IO.Error → String
  | .noFileOrDirectory .. => FileFailure.missing.message
  | .inappropriateType _ 21 _ => FileFailure.isDirectory.message
  | .inappropriateType .. => FileFailure.notDirectory.message
  | other => toString other

def readSource (name : FileName) : IO SourceResult := do
  try
    return .ofContents name (← IO.FS.readFile name.render)
  catch e =>
    return .unreadable name (reasonOf e)

def expandSources (inv : Invocation) : IO UInt32 := do
  let mut results : Array SourceResult := #[]
  for name in inv.sources do
    let result ← readSource name
    results := results.push result
    IO.eprint (inv.messages result)
    IO.print (inv.shown result)
    match inv.storage? result with
    | none => pure ()
    | some ⟨none, _⟩ => throw (.userError "no name to write to")
    | some ⟨some target, text⟩ => IO.FS.writeFile target.render text
  IO.print (inv.report results.toList)
  return (exitCode results.toList).toUInt32

def runProgram (arguments : List String) : IO UInt32 := do
  match Request.ofArguments arguments with
  | .error e =>
    IO.eprint e.complaint
    return 2
  | .ok .help =>
    IO.println usage
    return 0
  | .ok (.expand inv) => expandSources inv

end Deasync

def main (arguments : List String) : IO UInt32 := Deasync.runProgram arguments
