import PvsIndex.Grammar.Symbol

/-!
# The rules of the theory language

`Nonterminal.bodies` is the grammar: what each phrase may be written as.  No
body is empty, which several later arguments use: a phrase always covers at
least one token, and its first symbol decides what it can start with.

Repetitions are phrases of their own (`theories`, `moreNames`, …) that grow to
the right, and an optional part is written as two alternatives.  `moreNames`,
`moreTypes` and `moreExprs` are shared by every phrase that has such a list.
-/

namespace PvsIndex

namespace Nonterminal

open Mark Keyword Terminal

/-- What a phrase may be written as. -/
def bodies : Nonterminal → List (List Symbol)
  | .start => [[theories]]
  | .theory =>
    [[identifier, theoryFormals, colon, THEORY, BEGIN, theoryParts, END, identifier],
     [identifier, theoryFormals, colon, THEORY, BEGIN, END, identifier],
     [identifier, colon, THEORY, BEGIN, theoryParts, END, identifier],
     [identifier, colon, THEORY, BEGIN, END, identifier]]
  | .theoryFormals =>
    [[lsquare, theoryFormal, moreFormals, rsquare],
     [lsquare, theoryFormal, rsquare]]
  | .theoryFormal =>
    [[identifier, moreNames, colon, typeKind],
     [identifier, moreNames, colon, typeExpr],
     [identifier, colon, typeKind],
     [identifier, colon, typeExpr]]
  | .theoryPart =>
    [[importing], [typeDeclaration], [formulaDeclaration], [constDeclaration], [varDeclaration]]
  | .importing =>
    [[IMPORTING, theoryName, moreTheoryNames],
     [IMPORTING, theoryName]]
  | .theoryName => [[identifier, actuals], [identifier]]
  | .typeDeclaration =>
    [[identifier, moreNames, colon, typeKind, typeDefinition],
     [identifier, moreNames, colon, typeKind],
     [identifier, colon, typeKind, typeDefinition],
     [identifier, colon, typeKind]]
  | .typeKind => [[TYPE, plus], [TYPE], [NONEMPTY_TYPE]]
  | .typeDefinition => [[equal, typeExpr], [FROM, typeExpr]]
  | .formulaDeclaration => [[identifier, colon, formulaKeyword, expr]]
  | .formulaKeyword => Keyword.formulas.map fun k => [.terminal (.keyword k)]
  | .constDeclaration =>
    [[identifier, moreNames, colon, typeExpr, constDefinition],
     [identifier, moreNames, colon, typeExpr],
     [identifier, colon, typeExpr, constDefinition],
     [identifier, colon, typeExpr],
     [identifier, bindingGroups, colon, typeExpr, constDefinition],
     [identifier, bindingGroups, colon, typeExpr]]
  | .constDefinition => [[equal, expr]]
  | .varDeclaration =>
    [[identifier, moreNames, colon, VAR, typeExpr],
     [identifier, colon, VAR, typeExpr]]
  | .bindingGroup =>
    [[lparen, binding, moreBindings, rparen],
     [lparen, binding, rparen]]
  | .binding =>
    [[identifier, moreNames, colon, typeExpr],
     [identifier, colon, typeExpr]]
  | .typeExpr =>
    [[typeName], [functionType], [tupleType], [subtype], [enumType], [predicateSubtype]]
  | .typeName => [[identifier, actuals], [identifier]]
  | .actuals =>
    [[lsquare, actual, moreActuals, rsquare],
     [lsquare, actual, rsquare]]
  | .actual => [[typeExpr], [number]]
  | .functionType =>
    [[lsquare, typeExpr, moreTypes, arrow, typeExpr, rsquare],
     [lsquare, typeExpr, arrow, typeExpr, rsquare]]
  | .tupleType => [[lsquare, typeExpr, moreTypes, rsquare]]
  | .subtype =>
    [[lbrace, identifier, moreNames, colon, typeExpr, bar, expr, rbrace],
     [lbrace, identifier, colon, typeExpr, bar, expr, rbrace]]
  | .enumType =>
    [[lbrace, identifier, moreNames, rbrace],
     [lbrace, identifier, rbrace]]
  | .predicateSubtype => [[lparen, expr, rparen]]
  | .expr => [[bindingExpr], [iffExpr]]
  | .bindingExpr =>
    [[FORALL, bindings, colon, expr],
     [EXISTS, bindings, colon, expr],
     [LAMBDA, bindings, colon, expr]]
  | .bindings => [[bindingGroup], [identifier, moreNames], [identifier]]
  | .iffExpr =>
    [[impliesExpr], [impliesExpr, IFF, iffExpr], [impliesExpr, equivalent, iffExpr]]
  | .impliesExpr =>
    [[orExpr], [orExpr, IMPLIES, impliesExpr], [orExpr, Mark.implies, impliesExpr]]
  | .orExpr => [[andExpr], [orExpr, OR, andExpr]]
  | .andExpr => [[notExpr], [andExpr, AND, notExpr], [andExpr, ampersand, notExpr]]
  | .notExpr => [[comparison], [NOT, notExpr]]
  | .comparison =>
    [[additive], [additive, equal, additive], [additive, unequal, additive],
     [additive, less, additive], [additive, atMost, additive],
     [additive, greater, additive], [additive, atLeast, additive]]
  | .additive =>
    [[multiplicative], [additive, plus, multiplicative], [additive, minus, multiplicative]]
  | .multiplicative =>
    [[unary], [multiplicative, asterisk, unary], [multiplicative, slash, unary]]
  | .unary => [[application], [minus, unary]]
  | .application =>
    [[primary], [application, lparen, expr, moreExprs, rparen],
     [application, lparen, expr, rparen]]
  | .primary =>
    [[identifier], [number], [string], [TRUE], [FALSE], [lparen, expr, rparen],
     [tupleExpr], [ifExpr]]
  | .tupleExpr => [[lparen, expr, moreExprs, rparen]]
  | .ifExpr =>
    [[IF, expr, THEN, expr, elsifBranches, ELSE, expr, ENDIF],
     [IF, expr, THEN, expr, ELSE, expr, ENDIF]]
  | .identifier => [[ident]]
  | .theories => [[theory], [theories, theory]]
  | .theoryParts => [[theoryPart], [theoryParts, theoryPart]]
  | .moreFormals => [[comma, theoryFormal], [moreFormals, comma, theoryFormal]]
  | .moreNames => [[comma, identifier], [moreNames, comma, identifier]]
  | .moreTheoryNames => [[comma, theoryName], [moreTheoryNames, comma, theoryName]]
  | .bindingGroups => [[bindingGroup], [bindingGroups, bindingGroup]]
  | .moreBindings => [[comma, binding], [moreBindings, comma, binding]]
  | .moreActuals => [[comma, actual], [moreActuals, comma, actual]]
  | .moreTypes => [[comma, typeExpr], [moreTypes, comma, typeExpr]]
  | .moreExprs => [[comma, expr], [moreExprs, comma, expr]]
  | .elsifBranches =>
    [[ELSIF, expr, THEN, expr], [elsifBranches, ELSIF, expr, THEN, expr]]

end Nonterminal

/-- One way to write a phrase: the phrase is the head, what it is written as the
body. -/
structure Rule where
  head : Nonterminal
  body : List Symbol
deriving DecidableEq

namespace Rule

/-- Every rule of the grammar. -/
def all : List Rule :=
  Nonterminal.all.flatMap fun n => n.bodies.map (Rule.mk n)

theorem mem_all_iff {r : Rule} : r ∈ all ↔ r.body ∈ r.head.bodies := by
  simp only [all, List.mem_flatMap, List.mem_map]
  constructor
  · rintro ⟨n, _, body, h, rfl⟩
    exact h
  · intro h
    exact ⟨r.head, r.head.mem_all, r.body, h, rfl⟩

end Rule

end PvsIndex
