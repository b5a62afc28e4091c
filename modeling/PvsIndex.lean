import PvsIndex.Grammar.Derivation
import PvsIndex.Main
import PvsIndex.Proofs.Grammar.Ebnf
import PvsIndex.Proofs.Parse.Verdict
import PvsIndex.Proofs.Parse.Completeness
import PvsIndex.Proofs.Tree.Shape
import PvsIndex.Proofs.Declaration.Scan
import PvsIndex.Proofs.Declaration.Phrases
import PvsIndex.Proofs.Tree.Location
import PvsIndex.Proofs.Declaration.Parts
import PvsIndex.Proofs.Declaration.Completeness
import PvsIndex.Proofs.Report
import PvsIndex.Proofs.Token.Cut
import PvsIndex.Proofs.Token.Context
import PvsIndex.Proofs.Parse.Recovery
import PvsIndex.Proofs.Parse.Repair
import PvsIndex.Proofs.Grammar.Productive
import PvsIndex.Proofs.Parse.Viable
import PvsIndex.Proofs.Declaration.Entries
import PvsIndex.Proofs.Declaration.Extract
import PvsIndex.Proofs.Token.Solid
import PvsIndex.Proofs.Parse.Relabel
import PvsIndex.Proofs.Declaration.Relabel
import PvsIndex.Proofs.Text.LineEnds
import PvsIndex.Proofs.Text.Layout
import PvsIndex.Proofs.Text.Join
import PvsIndex.Proofs.Parse.Unreadable
import PvsIndex.Proofs.Parse.Machine
import PvsIndex.Proofs.Token.Language
import PvsIndex.Proofs.Text.Lines
import PvsIndex.Proofs.Token.Coverage
import PvsIndex.Proofs.Declaration.Pointing
import PvsIndex.Proofs.Text.Utf8
import PvsIndex.Proofs.Command.Outcome
import PvsIndex.Proofs.Declaration.History
import PvsIndex.Proofs.Declaration.Steps
import PvsIndex.Proofs.Tree.Numbering
import PvsIndex.Proofs.Tree.Laminar
import PvsIndex.Proofs.Parse.Expecting
import PvsIndex.Proofs.Parse.Continuations
import PvsIndex.Proofs.Declaration.Duplicates
import PvsIndex.Proofs.Token.LetterCase
import PvsIndex.Proofs.Text.KeywordCase
import PvsIndex.Proofs.Token.Longest
import PvsIndex.Proofs.Text.Excerpt
import PvsIndex.Proofs.Command.Reading
import PvsIndex.Proofs.Json.Grammar
import PvsIndex.Proofs.Json.Unambiguous
import PvsIndex.Proofs.Json.Render
import PvsIndex.Proofs.Command.Printed
import PvsIndex.Proofs.Command.Spelling
