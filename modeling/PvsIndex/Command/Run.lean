import PvsIndex.Command.Options
import PvsIndex.Command.Store
import PvsIndex.Report.Written

/-!
# Running the command

The command checks one file.  Its outcome is an exit code (0 for a clean text,
1 for syntax errors, 2 for anything that keeps the text from being checked) and
the lines it prints.  Unless `--test` asks for a summary to be read by people,
the report is printed as JSON; `--json` asks for both.

Two faults are not answered by an outcome: a NUL character in the path, and a
tree whose nodes have token numbers that do not exist.  The second cannot come
from parsing a text.
-/

namespace PvsIndex

/-- What keeps a file from being reported on: it cannot be read, or its syntax tree
is wrong. -/
inductive CheckFault where
  | source (f : ReadFault)
  | tree (f : TreeFault)
deriving DecidableEq

/-- The wording of a fault. -/
def CheckFault.message : CheckFault → String
  | source f => f.message
  | tree f => f.message

/-- The text that bytes stand for. -/
def decodeSource (bytes : List UInt8) : Except ReadFault (List Char) :=
  (Utf8.decode bytes).mapError .undecodable

/-- The report on a file with these bytes, if they could be read, by a given
way to parse. -/
def checkBytes (parse : List Char → Parsed) (reportDuplicates : Bool)
    (bytes : Except ReadFault (List UInt8)) : Except CheckFault Report :=
  match bytes.bind decodeSource with
  | .error f => .error (.source f)
  | .ok text => (Report.ofParsed reportDuplicates (parse text)).mapError .tree

/-- The bytes at a path, which has to be given. -/
def fetch (read : Path → Except ReadFault (List UInt8)) :
    Option Path → Except ReadFault (List UInt8)
  | none => .error .noPath
  | some p => read p

/-- The report on the file at a path. -/
def checkFile (read : Path → Except ReadFault (List UInt8)) (source : Option Path)
    (reportDuplicates : Bool) : Except CheckFault Report :=
  checkBytes parse reportDuplicates (fetch read source)

/-- What the command is to do with the file at `source`: print a summary for people,
warn of displaced declarations, print the report as JSON. -/
structure Settings where
  source : Path
  testMode : Bool
  reportDuplicates : Bool
  json : Bool
deriving DecidableEq

namespace Settings

/-- JSON is printed unless only a summary was asked for. -/
def ofChoices (source : Path) (test reportDuplicates json : Bool) : Settings :=
  ⟨source, test, reportDuplicates, !test || json⟩

/-- The settings that flags ask for. -/
def ofFlags (source : List Char) (flags : List Flag) : Settings :=
  ofChoices (.ofText source) (Flag.test ∈ flags) (Flag.reportDuplicates ∈ flags) (Flag.json ∈ flags)

end Settings

/-- What the command leaves behind: its exit code, and the lines on standard output
and standard error. -/
structure Outcome where
  exit : Nat
  out : List String
  err : List String
deriving DecidableEq

namespace Outcome

/-- Lines as they are printed, each with its line end. -/
def printed (lines : List String) : String :=
  String.join (lines.map (· ++ "\n"))

/-- How the command is called. -/
def usage : String :=
  "usage: pvs-typecheck [-h] [--test] [--json] [--report-duplicates] source"

/-- What is printed when help is asked for. -/
def helpText : List String :=
  [usage,
   "",
   "Index the type and formula declarations of a PVS file",
   "",
   "positional arguments:",
   "  source               Path to the PVS source file",
   "",
   "options:",
   "  -h, --help           show this help message and exit",
   "  --test, -test        Print progress and a human-readable summary of the",
   "                       declaration index",
   "  --json               Print the JSON report (default unless --test is given)",
   "  --report-duplicates  Add warnings for declarations that are overwritten by a",
   "                       later one with the same name"]

/-- The outcome when reading the arguments ends early. -/
def ofStop : Stop → Outcome
  | .help => ⟨0, helpText, []⟩
  | .misuse m => ⟨2, [], [usage, "pvs-typecheck: error: " ++ m.message]⟩

/-- The line that separates the parts of a summary. -/
def ruler : String :=
  String.ofList (List.replicate 30 '-')

/-- A table in a summary. -/
def tableLines (title : String) (t : Table) : List String :=
  [ruler, toString t.length ++ " " ++ title, ruler] ++
    t.map fun d => String.ofList d.identifier ++ " " ++ String.ofList d.toJson.render

/-- The summary of an index. -/
def summary (index : Index) : List String :=
  tableLines "type declarations" index.types ++ tableLines "formula declarations" index.formulas

/-- A diagnostic in a file, on one line. -/
def diagnosticLine (source : Path) (d : Diagnostic) : String :=
  source.toString ++ ":" ++ toString d.range.start.line ++ ":" ++ toString d.range.start.character
    ++ ": " ++ d.severity.word ++ ": " ++ d.message

/-- The lines printed before the file is read. -/
def greeting (s : Settings) : List String :=
  if s.testMode then ["Parsing file " ++ s.source.toString] else []

/-- The report as JSON, if it is to be printed. -/
def jsonLines (s : Settings) (r : Report) : List String :=
  if s.json then [String.ofList r.toJson.render] else []

/-- The outcome when the file cannot be checked. -/
def fatal (s : Settings) (message : String) : Outcome :=
  ⟨2, greeting s, [s.source.toString ++ ":?:?: error: " ++ message]⟩

/-- The outcome for a report. -/
def ofReport (s : Settings) : Report → Outcome
  | .rejected diagnostics =>
    ⟨1, greeting s ++ jsonLines s (.rejected diagnostics),
      if s.testMode then diagnostics.map (diagnosticLine s.source) else []⟩
  | .indexed index duplicates =>
    if s.testMode then
      ⟨0, greeting s ++ [s.source.toString ++ " parsed successfully!"] ++ summary index
          ++ jsonLines s (.indexed index duplicates),
        duplicates.map (diagnosticLine s.source)⟩
    else
      ⟨0, jsonLines s (.indexed index duplicates), []⟩

/-- The outcome of checking a file; two faults have none. -/
def ofChecked (s : Settings) : Except CheckFault Report → Except CheckFault Outcome
  | .ok report => .ok (ofReport s report)
  | .error (.source .nulInPath) => .error (.source .nulInPath)
  | .error (.source f) => .ok (fatal s ("cannot read input: " ++ f.message))
  | .error (.tree .noSuchToken) => .error (.tree .noSuchToken)
  | .error (.tree f) => .ok (fatal s ("internal: " ++ f.message))

end Outcome

/-- The settings that arguments ask for, or the outcome they have by themselves. -/
def settingsOfArguments (arguments : List (List Char)) : Except Outcome Settings :=
  match Request.ofArguments arguments with
  | .error stop => .error (.ofStop stop)
  | .ok (source, flags) => .ok (.ofFlags source flags)

/-- The outcome of the command on a file with these bytes. -/
def runOnBytes (parse : List Char → Parsed) (s : Settings)
    (bytes : Except ReadFault (List UInt8)) : Except CheckFault Outcome :=
  Outcome.ofChecked s (checkBytes parse s.reportDuplicates bytes)

/-- The outcome of the command, by a given way to parse. -/
def runWith (parse : List Char → Parsed) (read : Path → Except ReadFault (List UInt8))
    (arguments : List (List Char)) : Except CheckFault Outcome :=
  match settingsOfArguments arguments with
  | .error outcome => .ok outcome
  | .ok s => runOnBytes parse s (read s.source)

/-- The outcome of the command. -/
def runCommand (read : Path → Except ReadFault (List UInt8)) (arguments : List (List Char)) :
    Except CheckFault Outcome :=
  runWith parse read arguments

end PvsIndex
