import PvsIndex.Diagnostic
import PvsIndex.Parse.Recovery

/-!
# Faults: what a syntax error is, and how it is worded

Three things can go wrong while reading: a word that does not fit, a character
that begins no word, and a text that ends in the open.  `Fault.diagnostic` is
the only place where they are put into words, and `Fault.resumes` says after
which of them reading goes on.

Faults may also be reported by hand, with names that are not of the grammar
(`Label.other`) and with positions of which parts are unknown; an unknown line
or column counts as one.
-/

namespace PvsIndex

/-- What a terminal is called by whoever reports a fault: a lookahead of the grammar,
or any other name. -/
inductive Label where
  | known (a : Lookahead)
  | other (name : String)
deriving DecidableEq

namespace Label

/-- The label with a given name. -/
def ofName (name : String) : Label :=
  match Lookahead.all.find? fun a => a.name = name with
  | some a => known a
  | none => other name

/-- What an "expecting" list shows. -/
def shown : Label → String
  | known a => a.label
  | other name => name

/-- The name of a label. -/
def name : Label → String
  | known a => a.name
  | other name => name

end Label

/-- A word that does not fit, as it was met, with what would have fitted.  Lines and
columns count from one, and `stopColumn` is past the last character. -/
structure Mismatch where
  label : Label
  text : List Char
  line : Option Int
  column : Option Int
  stopLine : Option Int
  stopColumn : Option Int
  expected : List Label

/-- What can go wrong while reading: a word, or the end of the text, that does not
fit; a character that begins no word, with its line and column from one; a text
that is used up while some terminals are awaited. -/
inductive Fault where
  | mismatch (m : Mismatch)
  | unreadable (c : Char) (line column : Int)
  | exhausted (expected : List Label)

namespace Mismatch

/-- Is it the end of the text that does not fit? -/
def atEnd (m : Mismatch) : Bool :=
  m.label = .known .endOfText

/-- What would have fitted, sorted by code points. -/
def shownExpected (m : Mismatch) : List String :=
  (m.expected.map Label.shown).mergeSort fun a b => decide (a ≤ b)

/-- What did not fit, in quotes. -/
def shownText (m : Mismatch) : String :=
  if m.atEnd then "'" ++ Lookahead.endLabel ++ "'" else "'" ++ String.ofList m.text ++ "'"

/-- The wording of a mismatch. -/
def message (m : Mismatch) : String :=
  let met := "mismatched input " ++ m.shownText
  match m.shownExpected with
  | [] => met
  | shown => met ++ " expecting \x7b" ++ String.intercalate ", " shown ++ "\x7d"

/-- The diagnostic for a mismatch.  The end of the text is reported where the
last word stops, and covers no text. -/
def diagnostic (m : Mismatch) : Diagnostic :=
  let line := m.line.getD 1
  let column := m.column.getD 1
  if m.atEnd then
    .syntaxError (m.stopLine.getD line) (m.stopColumn.getD column - 1) [] m.message
  else
    .syntaxError line (column - 1) m.text m.message

end Mismatch

namespace Fault

/-- The diagnostic for a fault.  A text that is used up has no position, which
counts as line and column minus one. -/
def diagnostic : Fault → Diagnostic
  | mismatch m => m.diagnostic
  | unreadable c line column =>
    .syntaxError line (column - 1) [c]
      ("token recognition error at: '" ++ String.ofList [c] ++ "'")
  | exhausted expected =>
    .syntaxError (-1) (-2) []
      ("Unexpected end-of-input. Expected one of: \n\t* "
        ++ String.intercalate "\n\t* " (expected.map Label.name) ++ "\n")

/-- Does reading go on?  At the end of the text nothing is left to drop. -/
def resumes : Fault → Bool
  | mismatch m => !m.atEnd
  | unreadable .. => true
  | exhausted _ => false

end Fault

/-- A fault is met: its diagnostic is recorded. -/
def Collector.meet (c : Collector) (f : Fault) : Collector :=
  c.record f.diagnostic

/-- The fault behind an event, if it is one. -/
def Event.fault? : Event → Option Fault
  | passed _ => none
  | taken _ => none
  | dropped t expected =>
    some <| .mismatch
      { label := .known (.terminal t.terminal)
        text := t.text
        line := some t.start.line
        column := some t.start.column
        stopLine := some t.stop.line
        stopColumn := some t.stop.column
        expected := expected.map .known }
  | unreadable u => some (.unreadable u.char u.place.line u.place.column)

/-- The fault behind an ending, if it is one.  The end of the text borrows the
position of the last token; without any token its position is unknown. -/
def Ending.fault? : Ending → Option Fault
  | accepted _ => none
  | refused last expected =>
    some <| .mismatch
      { label := .known .endOfText
        text := []
        line := last.map fun t => t.start.line
        column := last.map fun t => t.start.column
        stopLine := last.map fun t => t.stop.line
        stopColumn := last.map fun t => t.stop.column
        expected := expected.map .known }

namespace Run

/-- The faults of a run, in the order in which they were met. -/
def faults (r : Run) : List Fault :=
  r.events.filterMap Event.fault? ++ r.ending.fault?.toList

/-- The collector after all faults of a run were handed to it. -/
def collector (r : Run) : Collector :=
  r.faults.foldl Collector.meet .empty

/-- The diagnostics of a run, in the order in which the faults were met. -/
def diagnostics (r : Run) : List Diagnostic :=
  r.collector.diagnostics

theorem diagnostics_eq_map (r : Run) : r.diagnostics = r.faults.map Fault.diagnostic := by
  have folded := Collector.foldl_record .empty (r.faults.map Fault.diagnostic)
  rwa [List.foldl_map] at folded

end Run

end PvsIndex
