import Mathlib.Data.List.Nodup
import PvsIndex.Proofs.Command.Outcome
import PvsIndex.Proofs.Json.Render

/-!
# What a printed report says

A report that is printed as JSON can be read back.  The line is JSON for the report
and for nothing else, and no report that says something else is written alike
(`Report.said_of_render`).

That no object repeats a key is plain for the objects with fixed keys.  The keys of a
table are names, and a name that is declared again does not get a second place
(`Index.nodup_addAll`).
-/

namespace PvsIndex

/-! ## What a report says -/

/-- What a report says: its errors, or its two tables and the warnings. -/
def Report.said : Report → List Diagnostic ⊕ (Table × Table × List Diagnostic)
  | rejected diagnostics => .inl diagnostics
  | indexed index duplicates => .inr (index.types, index.formulas, duplicates)

theorem Position.toJson_injective : Function.Injective Position.toJson := by
  rintro ⟨line, character⟩ ⟨line', character'⟩ same
  simp only [toJson, Json.object.injEq, List.cons.injEq, Prod.mk.injEq, Json.number.injEq] at same
  rw [same.1.2, same.2.1.2]

theorem Range.toJson_injective : Function.Injective Range.toJson := by
  rintro ⟨start, stop⟩ ⟨start', stop'⟩ same
  simp only [toJson, Json.object.injEq, List.cons.injEq, Prod.mk.injEq] at same
  rw [Position.toJson_injective same.1.2, Position.toJson_injective same.2.1.2]

theorem Severity.code_injective : Function.Injective Severity.code := by
  intro s s' same
  cases s with
  | error =>
      cases s' with
      | error => rfl
      | warning => cases same
  | warning =>
      cases s' with
      | error => cases same
      | warning => rfl

theorem Diagnostic.toJson_injective : Function.Injective Diagnostic.toJson := by
  rintro ⟨range, message, severity⟩ ⟨range', message', severity'⟩ same
  simp only [toJson, Json.object.injEq, List.cons.injEq, Prod.mk.injEq, Json.number.injEq,
    Json.string.injEq] at same
  rw [Range.toJson_injective same.1.2, same.2.1.2, Severity.code_injective same.2.2.1.2]

theorem Descriptor.toJson_injective : Function.Injective Descriptor.toJson := by
  rintro ⟨identifier, line, character, declaration⟩ ⟨identifier', line', character', declaration'⟩
    same
  simp only [toJson, Json.object.injEq, List.cons.injEq, Prod.mk.injEq, Json.number.injEq,
    Json.string.injEq] at same
  rw [same.1.2, same.2.1.2, String.ofList_injective same.2.2.1.2,
    String.ofList_injective same.2.2.2.1.2]

theorem Table.toJson_injective : Function.Injective Table.toJson := by
  intro t t' same
  refine List.map_injective_iff.mpr ?_ (Json.object.inj same)
  intro d d' entry
  exact Descriptor.toJson_injective (Prod.mk.inj entry).2

theorem Index.members_injective {index index' : Index} (same : index.members = index'.members) :
    index.types = index'.types ∧ index.formulas = index'.formulas := by
  simp only [members, List.cons.injEq, Prod.mk.injEq] at same
  exact ⟨Table.toJson_injective same.1.2, Table.toJson_injective same.2.1.2⟩

theorem Report.toJson_indexed (index : Index) (duplicates : List Diagnostic) :
    (indexed index duplicates).toJson = .object (index.members ++
      if duplicates = [] then [] else [("duplicates", .array (duplicates.map Diagnostic.toJson))]) := by
  cases duplicates with
  | nil => rfl
  | cons d ds => rfl

theorem Report.said_of_toJson {report report' : Report} (same : report.toJson = report'.toJson) :
    report.said = report'.said := by
  have listed := List.map_injective_iff.mpr Diagnostic.toJson_injective
  cases report with
  | rejected ds =>
      cases report' with
      | rejected ds' => rw [said, said, listed (Json.array.inj same)]
      | indexed index' ds' =>
          rw [toJson_indexed] at same
          cases same
  | indexed index ds =>
      rw [toJson_indexed] at same
      cases report' with
      | rejected ds' => cases same
      | indexed index' ds' =>
          rw [toJson_indexed] at same
          obtain ⟨tables, warnings⟩ := List.append_inj (Json.object.inj same) rfl
          obtain ⟨types, formulas⟩ := Index.members_injective tables
          have duplicates : ds = ds' := by
            by_cases quiet : ds = []
            · by_cases quiet' : ds' = []
              · rw [quiet, quiet']
              · rw [if_pos quiet, if_neg quiet'] at warnings
                cases warnings
            · by_cases quiet' : ds' = []
              · rw [if_neg quiet, if_pos quiet'] at warnings
                cases warnings
              · rw [if_neg quiet, if_neg quiet'] at warnings
                exact listed (Json.array.inj (Prod.mk.inj (List.cons.inj warnings).1).2)
          rw [said, said, types, formulas, duplicates]

/-- Reports that are written alike say the same. -/
theorem Report.said_of_render {report report' : Report}
    (same : report.toJson.render = report'.toJson.render) : report.said = report'.said :=
  said_of_toJson (Json.render_injective same)

/-! ## Keys -/

/-- No object in the value repeats a key. -/
inductive Json.KeysDistinct : Json → Prop where
  | number (n : Int) : KeysDistinct (.number n)
  | string (s : String) : KeysDistinct (.string s)
  | array {items : List Json} :
      (∀ item ∈ items, KeysDistinct item) → KeysDistinct (.array items)
  | object {members : List (String × Json)} :
      (members.map Prod.fst).Nodup → (∀ member ∈ members, KeysDistinct member.2) →
        KeysDistinct (.object members)

theorem Position.keysDistinct (p : Position) : p.toJson.KeysDistinct := by
  refine .object (show ["line", "character"].Nodup by decide) ?_
  simp only [List.forall_mem_cons]
  exact ⟨.number _, .number _, nofun⟩

theorem Range.keysDistinct (r : Range) : r.toJson.KeysDistinct := by
  refine .object (show ["start", "end"].Nodup by decide) ?_
  simp only [List.forall_mem_cons]
  exact ⟨r.start.keysDistinct, r.stop.keysDistinct, nofun⟩

theorem Diagnostic.keysDistinct (d : Diagnostic) : d.toJson.KeysDistinct := by
  refine .object (show ["range", "message", "severity"].Nodup by decide) ?_
  simp only [List.forall_mem_cons]
  exact ⟨d.range.keysDistinct, .string _, .number _, nofun⟩

theorem Descriptor.keysDistinct (d : Descriptor) : d.toJson.KeysDistinct := by
  refine .object (show ["line", "character", "identifier", "declaration"].Nodup by decide) ?_
  simp only [List.forall_mem_cons]
  exact ⟨.number _, .number _, .string _, .string _, nofun⟩

theorem keysDistinct_diagnostics (ds : List Diagnostic) :
    (Json.array (ds.map Diagnostic.toJson)).KeysDistinct :=
  .array (List.forall_mem_map.mpr fun d _ => d.keysDistinct)

theorem Table.keysDistinct {t : Table} (distinct : t.identifiers.Nodup) :
    t.toJson.KeysDistinct := by
  refine .object ?_ (List.forall_mem_map.mpr fun d _ => d.keysDistinct)
  have keys : (t.map fun d => (String.ofList d.identifier, d.toJson)).map Prod.fst =
      t.identifiers.map String.ofList := by
    rw [identifiers, List.map_map, List.map_map]
    rfl
  rw [keys]
  exact distinct.map fun _ _ => String.ofList_injective

/-- The JSON of a report on a text repeats no keys. -/
theorem Report.keysDistinct {reportDuplicates : Bool} {text : List Char} {report : Report}
    (h : ofSource reportDuplicates text = .ok report) : report.toJson.KeysDistinct := by
  cases report with
  | rejected ds => exact keysDistinct_diagnostics ds
  | indexed index ds =>
      obtain ⟨_, ts, _, rfl⟩ := parsed_of_indexed h
      have tables (kind : DeclarationKind) :
          ((Index.ofDeclared text (declared [] ts.tokens)).table kind).toJson.KeysDistinct := by
        rw [Index.ofDeclared_eq]
        exact Table.keysDistinct (Index.nodup_addAll _ kind)
      rw [toJson_indexed]
      refine .object ?_ ?_
      · split
        · exact (show ["typeDeclarations", "formulaDeclarations"].Nodup by decide)
        · exact (show ["typeDeclarations", "formulaDeclarations", "duplicates"].Nodup by decide)
      · rw [List.forall_mem_append, Index.members]
        simp only [List.forall_mem_cons]
        refine ⟨⟨tables .type, tables .formula, nofun⟩, ?_⟩
        split
        · exact nofun
        · exact List.forall_mem_singleton.mpr (keysDistinct_diagnostics ds)

/-! ## Reading a report -/

/-- The value has what the position says. -/
def Position.ToldBy (p : Position) (v : Json) : Prop :=
  v.get? "line" = some (.number p.line) ∧ v.get? "character" = some (.number p.character)

/-- The value has what the diagnostic says. -/
def Diagnostic.ToldBy (d : Diagnostic) (v : Json) : Prop :=
  (∃ start stop, (v.get? "range").bind (·.get? "start") = some start ∧
    (v.get? "range").bind (·.get? "end") = some stop ∧
    d.range.start.ToldBy start ∧ d.range.stop.ToldBy stop) ∧
  v.get? "message" = some (.string d.message) ∧
  v.get? "severity" = some (.number d.severity.code)

/-- The value has what the descriptor says. -/
def Descriptor.ToldBy (d : Descriptor) (v : Json) : Prop :=
  v.get? "line" = some (.number d.line) ∧ v.get? "character" = some (.number d.character) ∧
  v.get? "identifier" = some (.string (String.ofList d.identifier)) ∧
  v.get? "declaration" = some (.string (String.ofList d.declaration))

/-- The value has the descriptors of the table under their names, in their order. -/
def Table.ToldBy (t : Table) (v : Json) : Prop :=
  ∃ members, v = .object members ∧
    List.Forall₂ (fun (d : Descriptor) member =>
      member.1 = String.ofList d.identifier ∧ d.ToldBy member.2) t members

/-- The value says what the report says. -/
inductive Report.ToldBy : Report → Json → Prop where
  | rejected {ds : List Diagnostic} {items : List Json} :
      List.Forall₂ Diagnostic.ToldBy ds items → ToldBy (.rejected ds) (.array items)
  | clean {index : Index} {types formulas : Json} :
      index.types.ToldBy types → index.formulas.ToldBy formulas →
        ToldBy (.indexed index [])
          (.object [("typeDeclarations", types), ("formulaDeclarations", formulas)])
  | warned {index : Index} {ds : List Diagnostic} {types formulas : Json} {items : List Json} :
      index.types.ToldBy types → index.formulas.ToldBy formulas → ds ≠ [] →
        List.Forall₂ Diagnostic.ToldBy ds items →
          ToldBy (.indexed index ds)
            (.object [("typeDeclarations", types), ("formulaDeclarations", formulas),
              ("duplicates", .array items)])

theorem Diagnostic.toldBy_toJson (d : Diagnostic) : d.ToldBy d.toJson :=
  ⟨⟨d.range.start.toJson, d.range.stop.toJson, rfl, rfl, ⟨rfl, rfl⟩, rfl, rfl⟩, rfl, rfl⟩

theorem forall₂_diagnostic_toldBy (ds : List Diagnostic) :
    List.Forall₂ Diagnostic.ToldBy ds (ds.map Diagnostic.toJson) := by
  rw [List.forall₂_map_right_iff, List.forall₂_same]
  exact fun d _ => d.toldBy_toJson

theorem Table.toldBy_toJson (t : Table) : t.ToldBy t.toJson := by
  refine ⟨_, rfl, ?_⟩
  rw [List.forall₂_map_right_iff, List.forall₂_same]
  exact fun d _ => ⟨rfl, rfl, rfl, rfl, rfl⟩

theorem Report.toldBy_toJson (report : Report) : report.ToldBy report.toJson := by
  cases report with
  | rejected ds => exact .rejected (forall₂_diagnostic_toldBy ds)
  | indexed index ds =>
      have types := index.types.toldBy_toJson
      have formulas := index.formulas.toldBy_toJson
      cases ds with
      | nil => exact .clean types formulas
      | cons d ds => exact .warned types formulas nofun (forall₂_diagnostic_toldBy (d :: ds))

/-- The line is the report in JSON: one line of ASCII, that can be read as the report
and as nothing else, in objects without repeated keys, and by which no report is told
that says something else. -/
structure Report.IsPrinted (report : Report) (line : List Char) : Prop where
  ascii : Json.IsAscii line
  reading : ∀ v, Json.IsText v line ↔ v = report.toJson.value
  told : report.ToldBy report.toJson
  distinct : report.toJson.KeysDistinct
  alone : ∀ other : Report, other.toJson.render = line → other.said = report.said

theorem Report.isPrinted_render {reportDuplicates : Bool} {text : List Char} {report : Report}
    (h : ofSource reportDuplicates text = .ok report) :
    report.IsPrinted report.toJson.render where
  ascii := Json.isAscii_render _
  reading := fun _ => Json.isText_render_iff
  told := report.toldBy_toJson
  distinct := keysDistinct h
  alone := fun _ same => said_of_render same

/-- Where the report is printed as JSON, the last line is the report. -/
theorem printed_report_reads_back (read : Path → Except ReadFault (List UInt8))
    (arguments : List (List Char)) (source : List Char) (flags : List Flag) (text : List Char)
    (accepted : Request.ofArguments arguments = .ok (source, flags))
    (asked : Flag.test ∉ flags ∨ Flag.json ∈ flags)
    (has : HasText read (.ofText source) text) :
    ∃ outcome report shown line, runCommand read arguments = .ok outcome ∧
      Report.ofSource (Flag.reportDuplicates ∈ flags) text = .ok report ∧
      outcome.out = shown ++ [line] ∧ (Flag.test ∉ flags → shown = []) ∧
      report.IsPrinted line.toList := by
  obtain ⟨report, outcome, reported, run, presents⟩ := runCommand_presents accepted has
  obtain ⟨shown, out, _, quiet⟩ := presents.out
  rw [if_pos asked] at out
  refine ⟨outcome, report, shown, _, run, reported, out, quiet, ?_⟩
  rw [String.toList_ofList]
  exact Report.isPrinted_render reported

/-- A theory with a declaration that needs all sorts of escapes. -/
def escapedTheory : List Char :=
  "t: THEORY BEGIN m, % \"\\\u007F😀\n\tn: TYPE END t".toList

/-- A folder with the theory. -/
def escapedFolder : Folder :=
  [("T.pvs".toList, .file (Utf8.encode escapedTheory))]

theorem printed_report_reads_back_escapedTheory :
    Request.ofArguments ["--te".toList, "--j".toList, "./T.pvs".toList] =
        .ok ("./T.pvs".toList, [.test, .json]) ∧
      HasText escapedFolder.read (.ofText "./T.pvs".toList) escapedTheory ∧
      ∃ outcome line, runCommand escapedFolder.read
          ["--te".toList, "--j".toList, "./T.pvs".toList] = .ok outcome ∧
        line ∈ outcome.out.getLast? ∧ '\n' ∉ line.toList ∧ ∃ v, Json.IsText v line.toList := by
  have accepted : Request.ofArguments ["--te".toList, "--j".toList, "./T.pvs".toList] =
      .ok ("./T.pvs".toList, [.test, .json]) := by
    decide +kernel
  have has : HasText escapedFolder.read (.ofText "./T.pvs".toList) escapedTheory := ⟨_, rfl, rfl⟩
  obtain ⟨outcome, report, shown, line, run, _, out, _, printed⟩ :=
    printed_report_reads_back escapedFolder.read _ _ _ _ accepted (by decide) has
  refine ⟨accepted, has, outcome, line, run, ?_, ?_, report.toJson.value, ?_⟩
  · rw [out]
    exact List.getLast?_concat
  · intro line_feed
    exact absurd (printed.ascii _ line_feed).1 (by decide)
  · exact (printed.reading _).mpr rfl

end PvsIndex
