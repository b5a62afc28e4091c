import PvsIndex.Declaration.Walk
import PvsIndex.Parse.Result

/-!
# Reports

One text makes one report: its syntax errors, or its declaration index.  There
is no partial index; a single syntax error keeps the tree from being walked.
On request the report of an index also has a warning for every declaration
that a later one of the same name displaced.
-/

namespace PvsIndex

/-- The outcome of checking a text: its syntax errors, or its declarations with the
warnings that were asked for. -/
inductive Report where
  | rejected (diagnostics : List Diagnostic)
  | indexed (index : Index) (duplicates : List Diagnostic)

/-- The warning for a displaced declaration, at its name. -/
def duplicateWarning (kind : DeclarationKind) (d : Descriptor) : Diagnostic :=
  .onLine d.line d.character d.identifier.length
    ("duplicate " ++ kind.word ++ " declaration '" ++ String.ofList d.identifier ++ "'") .warning

/-- The warnings for all displaced declarations, in the order of displacement. -/
def Index.duplicateWarnings (index : Index) : List Diagnostic :=
  index.shadowed.map fun (kind, d) => duplicateWarning kind d

namespace Report

/-- The report on the outcome of parsing. -/
def ofParsed (reportDuplicates : Bool) : Parsed → Except TreeFault Report
  | .rejected diagnostics => .ok (.rejected diagnostics)
  | .tree root tokens =>
    match Index.empty.walk root tokens with
    | (_, some fault) => .error fault
    | (index, none) =>
      .ok (.indexed index (if reportDuplicates then index.duplicateWarnings else []))

/-- The report on a text. -/
def ofSource (reportDuplicates : Bool) (source : List Char) : Except TreeFault Report :=
  ofParsed reportDuplicates (parse source)

end Report

end PvsIndex
