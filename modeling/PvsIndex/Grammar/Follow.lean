import PvsIndex.BitSet
import PvsIndex.Grammar.Rule

/-!
# What phrases open with, close with, and are followed by

A phrase opens with the phrases that can stand at its very front, itself
included, and closes with those that can stand at its very end.  Because no
rule has an empty body, both are plain reachability: `m` stands first in a
body of `n`, and so on.  From the two follow

  * `Nonterminal.first`, the terminals a phrase can begin with, and
  * `Nonterminal.follow`, the lookaheads that can come right after it: some
    rule puts a symbol `y` right after a phrase that closes with it, and `y`
    begins so; or the whole text closes with it.

Each set is given twice, once as its meaning (`…Set`) and once read from a
table that is filled in a single time.
-/

namespace PvsIndex

namespace Nonterminal

/-- The phrases that stand first in some body of `n`. -/
def fronts (n : Nonterminal) : List Nonterminal :=
  n.bodies.filterMap fun body =>
    match body.head? with
    | some (.phrase m) => some m
    | _ => none

/-- The phrases that stand last in some body of `n`. -/
def backs (n : Nonterminal) : List Nonterminal :=
  n.bodies.filterMap fun body =>
    match body.getLast? with
    | some (.phrase m) => some m
    | _ => none

/-- One round of reachability: the members and what they lead to. -/
def spread (leadsTo : Nonterminal → List Nonterminal) (s : BitSet) : BitSet :=
  all.foldl (fun acc n =>
    if s.contains n.index then acc.union (.ofList ((leadsTo n).map index)) else acc) s

/-- Rounds of reachability, until one of them adds nothing. -/
def spreadWithin (leadsTo : Nonterminal → List Nonterminal) : Nat → BitSet → BitSet
  | 0, s => s
  | rounds + 1, s =>
    let wider := spread leadsTo s
    if wider = s then s else spreadWithin leadsTo rounds wider

/-- What `n` leads to in any number of steps; after as many rounds as there are
phrases nothing new can appear. -/
def reach (leadsTo : Nonterminal → List Nonterminal) (n : Nonterminal) : BitSet :=
  spreadWithin leadsTo all.length (.singleton n.index)

/-- The phrases that `n` can open with. -/
def openingsSet (n : Nonterminal) : BitSet :=
  reach fronts n

/-- The phrases that `n` can close with. -/
def closingsSet (n : Nonterminal) : BitSet :=
  reach backs n

/-- Table of `openingsSet`. -/
def openingsTable : Array BitSet := BitSet.table all openingsSet

/-- Table of `closingsSet`. -/
def closingsTable : Array BitSet := BitSet.table all closingsSet

/-- The phrases that `n` can open with. -/
def openings (n : Nonterminal) : BitSet :=
  .lookUp openingsTable n.index

/-- The phrases that `n` can close with. -/
def closings (n : Nonterminal) : BitSet :=
  .lookUp closingsTable n.index

/-- The terminals that stand first in some body of `n`. -/
def frontTerminals (n : Nonterminal) : List Terminal :=
  n.bodies.filterMap fun body =>
    match body.head? with
    | some (.terminal t) => some t
    | _ => none

/-- The terminals that `n` can begin with. -/
def firstSet (n : Nonterminal) : BitSet :=
  .ofList <| (all.filter fun m => n.openings.contains m.index).flatMap fun m =>
    m.frontTerminals.map Terminal.index

/-- Table of `firstSet`. -/
def firstTable : Array BitSet := BitSet.table all firstSet

/-- The terminals that `n` can begin with. -/
def first (n : Nonterminal) : BitSet :=
  .lookUp firstTable n.index

end Nonterminal

/-- The terminals that a symbol can begin with. -/
def Symbol.first : Symbol → BitSet
  | terminal t => .singleton t.index
  | phrase n => n.first

/-- The phrases in a body that have a symbol right after them, with that symbol. -/
def Rule.neighbours (r : Rule) : List (Nonterminal × Symbol) :=
  (r.body.zip r.body.tail).filterMap fun (x, y) =>
    match x with
    | .phrase n => some (n, y)
    | .terminal _ => none

/-- Every phrase that a rule puts before another symbol, with that symbol. -/
def Rule.allNeighbours : List (Nonterminal × Symbol) :=
  Rule.all.flatMap Rule.neighbours

namespace Nonterminal

/-- The lookaheads that can come right after `n`. -/
def followSet (n : Nonterminal) : BitSet :=
  let inside := Rule.allNeighbours.filterMap fun (m, y) =>
    if m.closings.contains n.index then some y.first else none
  let atEnd := if start.closings.contains n.index then [.singleton Lookahead.endOfText.index] else []
  .unionAll (atEnd ++ inside)

/-- Table of `followSet`. -/
def followTable : Array BitSet := BitSet.table all followSet

/-- The lookaheads that can come right after `n`. -/
def follow (n : Nonterminal) : BitSet :=
  .lookUp followTable n.index

theorem openings_eq (n : Nonterminal) : n.openings = n.openingsSet :=
  BitSet.lookUp_table n.all_index

theorem closings_eq (n : Nonterminal) : n.closings = n.closingsSet :=
  BitSet.lookUp_table n.all_index

theorem first_eq (n : Nonterminal) : n.first = n.firstSet :=
  BitSet.lookUp_table n.all_index

theorem follow_eq (n : Nonterminal) : n.follow = n.followSet :=
  BitSet.lookUp_table n.all_index

end Nonterminal

end PvsIndex
