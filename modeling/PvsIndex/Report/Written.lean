import PvsIndex.Json
import PvsIndex.Report

/-!
# Reports as JSON

A rejected text is written as the array of its diagnostics.  An index is
written as an object with one member for each of its tables, and with the
warnings for displaced declarations as a third, if there are any.
-/

namespace PvsIndex

/-- A position as JSON. -/
def Position.toJson (p : Position) : Json :=
  .object [("line", .number p.line), ("character", .number p.character)]

/-- A range as JSON. -/
def Range.toJson (r : Range) : Json :=
  .object [("start", r.start.toJson), ("end", r.stop.toJson)]

/-- A diagnostic as JSON. -/
def Diagnostic.toJson (d : Diagnostic) : Json :=
  .object
    [("range", d.range.toJson), ("message", .string d.message), ("severity", .number d.severity.code)]

/-- A descriptor as JSON. -/
def Descriptor.toJson (d : Descriptor) : Json :=
  .object
    [("line", .number d.line), ("character", .number d.character),
     ("identifier", .string (String.ofList d.identifier)),
     ("declaration", .string (String.ofList d.declaration))]

/-- A table as JSON, with the names as keys. -/
def Table.toJson (t : Table) : Json :=
  .object (t.map fun d => (String.ofList d.identifier, d.toJson))

/-- The two tables of an index, as members of an object. -/
def Index.members (index : Index) : List (String × Json) :=
  [("typeDeclarations", index.types.toJson), ("formulaDeclarations", index.formulas.toJson)]

/-- An index as JSON. -/
def Index.toJson (index : Index) : Json :=
  .object index.members

/-- A report as JSON. -/
def Report.toJson : Report → Json
  | rejected diagnostics => .array (diagnostics.map Diagnostic.toJson)
  | indexed index [] => index.toJson
  | indexed index duplicates =>
    .object (index.members ++ [("duplicates", .array (duplicates.map Diagnostic.toJson))])

end PvsIndex
