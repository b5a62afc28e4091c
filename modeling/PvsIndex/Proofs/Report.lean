import PvsIndex.Proofs.Declaration.Completeness

/-!
# Reports

Every text gets a report.  The three faults of a tree walk do not occur, since
the walk only ever sees trees that were parsed; and a report has errors or an
index, never both and never neither.
-/

namespace PvsIndex

namespace Report

/-- The syntax errors of a report. -/
def diagnostics : Report → List Diagnostic
  | rejected diagnostics => diagnostics
  | indexed _ _ => []

/-- The index of a report. -/
def index? : Report → Option Index
  | rejected _ => none
  | indexed index _ => some index

/-- The warnings of a report. -/
def duplicates : Report → List Diagnostic
  | rejected _ => []
  | indexed _ duplicates => duplicates

end Report

theorem Fault.severity_diagnostic (f : Fault) : f.diagnostic.severity = .error := by
  cases f with
  | mismatch m =>
      rw [diagnostic, Mismatch.diagnostic]
      split
      · rfl
      · rfl
  | unreadable c line column => rfl
  | exhausted expected => rfl

theorem severity_parse {source : List Char} {diagnostics : List Diagnostic}
    (h : parse source = .rejected diagnostics) : ∀ d ∈ diagnostics, d.severity = .error := by
  have same : diagnostics = (Run.ofSource source).diagnostics := by
    rw [← parse_diagnostics, h, Parsed.diagnostics]
  rw [same, Run.diagnostics_eq_map]
  intro d hd
  obtain ⟨f, _, rfl⟩ := List.mem_map.mp hd
  exact f.severity_diagnostic

/-- Every text gets a report of one of two forms, and it is an index exactly
for the sentences among the readable texts. -/
theorem report_of_every_text (reportDuplicates : Bool) (source : List Char) :
    ∃ report, Report.ofSource reportDuplicates source = .ok report ∧
      ((report.diagnostics ≠ [] ∧ (∀ d ∈ report.diagnostics, d.severity = .error) ∧
          report.index? = none ∧ report.duplicates = []) ∨
        (report.diagnostics = [] ∧ report.index?.isSome = true)) ∧
      (report.diagnostics = [] ∧ report.index?.isSome = true ↔
        ∃ ts trees, tokenize source = .ok ts ∧ Reads (.symbol (.phrase .start)) ts trees) := by
  cases outcome : parse source with
  | rejected diagnostics =>
      have nonempty : diagnostics ≠ [] := by
        rintro rfl
        have clean : (parse source).diagnostics = [] := by rw [outcome, Parsed.diagnostics]
        obtain ⟨root, ts, parsed⟩ := parse_diagnostics_eq_nil_iff.mp clean
        rw [outcome] at parsed
        cases parsed
      refine ⟨.rejected diagnostics, by rw [Report.ofSource, outcome, Report.ofParsed],
        Or.inl ⟨nonempty, severity_parse outcome, rfl, rfl⟩, ?_⟩
      constructor
      · rintro ⟨empty, _⟩
        exact absurd empty nonempty
      · rintro ⟨ts, trees, tokens, reading⟩
        obtain ⟨_, root, _, _, parsed⟩ := parse_eq_tree_of_reads tokens reading
        rw [outcome] at parsed
        cases parsed
  | tree root ts =>
      obtain ⟨_, tokens, tree, derived, _⟩ := parse_eq_tree_iff.mp outcome
      obtain ⟨duplicates, report⟩ := Report.ofSource_parsed outcome reportDuplicates
      refine ⟨_, report, Or.inr ⟨rfl, rfl⟩, ?_⟩
      constructor
      · intro _
        exact ⟨ts.tokens, [tree], tokens, reads_iff_derives.mpr derived⟩
      · intro _
        exact ⟨rfl, rfl⟩

end PvsIndex
