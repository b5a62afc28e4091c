import PvsIndex.Parse.Fault
import PvsIndex.Tree.Node

/-!
# Parsing a text

A text without any fault has a syntax tree and a token stream.  A text with
faults has its diagnostics and nothing else, even if reading went on to an
accepted end.
-/

namespace PvsIndex

/-- The outcome of parsing: a syntax tree with the tokens it stands on, or what went
wrong. -/
inductive Parsed where
  | tree (root : Node) (tokens : TokenStream)
  | rejected (diagnostics : List Diagnostic)

/-- The syntax tree of accepted trees, which are one tree for the whole text. -/
def Ending.root? : Ending → Option (ParseTree × Node)
  | accepted [tree] => (Node.ofParseTree? tree).map (tree, ·)
  | _ => none

/-- Parse a text. -/
def parse (source : List Char) : Parsed :=
  let run := Run.ofSource source
  if run.collector.any then .rejected run.diagnostics
  else
    match run.ending.root? with
    | some (tree, root) => .tree root ⟨source, tree.tokens⟩
    | none => .rejected run.diagnostics

end PvsIndex
