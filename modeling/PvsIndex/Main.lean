import PvsIndex.Command.Run

/-!
# The command

The outermost layer: read the arguments and the file, print the outcome.
-/

namespace PvsIndex

/-- The system's number for a path that leads to a folder. -/
def folderCode : UInt32 := 21

/-- The fault behind a failure of the operating system. -/
def readFaultOfError (p : Path) : IO.Error → ReadFault
  | .noFileOrDirectory .. => .missing p
  | .inappropriateType _ code _ => if code = folderCode then .isFolder p else .notFolder p
  | e => .refused p (toString e)

/-- The bytes of a file. -/
def readFile (p : Path) : IO (Except ReadFault (List UInt8)) := do
  if p.text.contains '\x00' then
    return .error .nulInPath
  try
    let bytes ← IO.FS.readBinFile p.toString
    return .ok bytes.toList
  catch e =>
    return .error (readFaultOfError p e)

/-- Print an outcome. -/
def printOutcome (o : Outcome) : IO UInt32 := do
  (← IO.getStdout).putStr (Outcome.printed o.out)
  (← IO.getStderr).putStr (Outcome.printed o.err)
  return o.exit.toUInt32

end PvsIndex

/-- Check the file that the arguments name. -/
def main (arguments : List String) : IO UInt32 := do
  match PvsIndex.settingsOfArguments (arguments.map String.toList) with
  | .error outcome => PvsIndex.printOutcome outcome
  | .ok settings =>
    let bytes ← PvsIndex.readFile settings.source
    match PvsIndex.runOnBytes PvsIndex.parse settings bytes with
    | .ok outcome => PvsIndex.printOutcome outcome
    | .error fault =>
      IO.eprintln fault.message
      return 1
