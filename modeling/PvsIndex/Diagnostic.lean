/-!
# Diagnostics

What a report says about a stretch of the text.  Lines count from one and
characters from zero.  A syntax error covers one character more than the
offending text, on the line where that text starts.  A collector keeps what is
reported while a text is read, in the order of the reports.
-/

namespace PvsIndex

/-- A line, counted from one, and a character in it, counted from zero. -/
structure Position where
  line : Int
  character : Int
deriving DecidableEq

/-- From one position up to another, which is not part of it. -/
structure Range where
  start : Position
  stop : Position
deriving DecidableEq

/-- How grave a diagnostic is. -/
inductive Severity where
  | error
  | warning
deriving DecidableEq

namespace Severity

/-- The number that stands for a severity in a report. -/
def code : Severity → Int
  | error => 1
  | warning => 2

/-- The word that stands for a severity on a terminal. -/
def word : Severity → String
  | error => "error"
  | warning => "warning"

end Severity

/-- A message about a stretch of the text. -/
structure Diagnostic where
  range : Range
  message : String
  severity : Severity
deriving DecidableEq

namespace Diagnostic

/-- A diagnostic for `width` characters of one line. -/
def onLine (line character width : Int) (message : String) (severity : Severity) : Diagnostic :=
  ⟨⟨⟨line, character⟩, ⟨line, character + width⟩⟩, message, severity⟩

/-- A syntax error at the offending text. -/
def syntaxError (line character : Int) (offending : List Char) (message : String) : Diagnostic :=
  onLine line character (1 + offending.length) message .error

end Diagnostic

/-- What has been reported so far, in order; nothing is left out. -/
structure Collector where
  diagnostics : List Diagnostic

namespace Collector

/-- Nothing has been reported. -/
def empty : Collector := ⟨[]⟩

/-- Report one more diagnostic. -/
def record (c : Collector) (d : Diagnostic) : Collector :=
  ⟨c.diagnostics ++ [d]⟩

/-- How many diagnostics there are. -/
def length (c : Collector) : Nat :=
  c.diagnostics.length

/-- Has anything been reported? -/
def any (c : Collector) : Bool :=
  !c.diagnostics.isEmpty

@[simp] theorem any_eq_false {c : Collector} : c.any = false ↔ c.diagnostics = [] := by
  simp [any]

theorem foldl_record (c : Collector) (ds : List Diagnostic) :
    (ds.foldl record c).diagnostics = c.diagnostics ++ ds := by
  induction ds generalizing c with
  | nil => rw [List.foldl_nil, List.append_nil]
  | cons d ds ih => rw [List.foldl_cons, ih, record, List.append_assoc, List.singleton_append]

end Collector

end PvsIndex
