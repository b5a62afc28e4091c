import PvsIndex.Proofs.Grammar.Derivation

/-!
# The grammar as it is written down

A grammar for people has options, repetitions and alternatives inside its
rules.  `Nonterminal.definition` is the theory language in that form, one
definition for each phrase, and `Reads` says which tokens such a definition
admits and which trees they make.  The parser works on something else, the
plain bodies of `Grammar/Rule`, where every repetition is a phrase of its own.

The two are joined by `reads_iff_derives`: they admit the same tokens with the
same trees.  What is load-bearing is `mem_bodies_iff`, which says that the
bodies of every phrase are the expansion of its definition.  It is the only
place where the two grammars are compared rule by rule.

The phrases that stand for repetitions have definitions too, so that one
statement covers all phrases; no other definition mentions them.
-/

namespace PvsIndex

/-- What a definition is made of: symbols, a row of parts, a choice, and parts that
can be left out (`opt`), come any number of times (`star`) or at least once
(`plus`). -/
inductive Ebnf where
  | symbol (x : Symbol)
  | row (es : List Ebnf)
  | oneOf (es : List Ebnf)
  | opt (e : Ebnf)
  | star (e : Ebnf)
  | plus (e : Ebnf)

namespace Ebnf

instance : Coe Mark Ebnf := ⟨fun m => symbol m⟩
instance : Coe Keyword Ebnf := ⟨fun k => symbol k⟩
instance : Coe Terminal Ebnf := ⟨fun t => symbol t⟩
instance : Coe Nonterminal Ebnf := ⟨fun n => symbol n⟩

/-- A comma, then the phrase. -/
def next (n : Nonterminal) : Ebnf :=
  row [Mark.comma, n]

end Ebnf

namespace Nonterminal

open Mark Keyword Terminal Ebnf

/-- What a phrase is defined as. -/
def definition : Nonterminal → Ebnf
  | .start => .plus theory
  | .theory =>
    row [identifier, opt theoryFormals, colon, THEORY, BEGIN, star theoryPart, END, identifier]
  | .theoryFormals => row [lsquare, theoryFormal, star (next theoryFormal), rsquare]
  | .theoryFormal =>
    row [identifier, star (next identifier), colon, oneOf [typeKind, typeExpr]]
  | .theoryPart =>
    oneOf [importing, typeDeclaration, formulaDeclaration, constDeclaration, varDeclaration]
  | .importing => row [IMPORTING, theoryName, star (next theoryName)]
  | .theoryName => row [identifier, opt actuals]
  | .typeDeclaration =>
    row [identifier, star (next identifier), colon, typeKind, opt typeDefinition]
  | .typeKind => oneOf [row [TYPE, opt Mark.plus], NONEMPTY_TYPE]
  | .typeDefinition => oneOf [row [equal, typeExpr], row [FROM, typeExpr]]
  | .formulaDeclaration => row [identifier, colon, formulaKeyword, expr]
  | .formulaKeyword =>
    oneOf [AXIOM, CHALLENGE, CLAIM, CONJECTURE, COROLLARY, FACT, FORMULA, LAW, LEMMA,
      OBLIGATION, POSTULATE, PROPOSITION, SUBLEMMA, THEOREM]
  | .constDeclaration =>
    oneOf
      [row [identifier, star (next identifier), colon, typeExpr, opt constDefinition],
       row [identifier, .plus bindingGroup, colon, typeExpr, opt constDefinition]]
  | .constDefinition => row [equal, expr]
  | .varDeclaration => row [identifier, star (next identifier), colon, VAR, typeExpr]
  | .bindingGroup => row [lparen, binding, star (next binding), rparen]
  | .binding => row [identifier, star (next identifier), colon, typeExpr]
  | .typeExpr =>
    oneOf [typeName, functionType, tupleType, subtype, enumType, predicateSubtype]
  | .typeName => row [identifier, opt actuals]
  | .actuals => row [lsquare, actual, star (next actual), rsquare]
  | .actual => oneOf [typeExpr, number]
  | .functionType =>
    row [lsquare, typeExpr, star (next typeExpr), arrow, typeExpr, rsquare]
  | .tupleType => row [lsquare, typeExpr, .plus (next typeExpr), rsquare]
  | .subtype =>
    row [lbrace, identifier, star (next identifier), colon, typeExpr, bar, expr, rbrace]
  | .enumType => row [lbrace, identifier, star (next identifier), rbrace]
  | .predicateSubtype => row [lparen, expr, rparen]
  | .expr => oneOf [bindingExpr, iffExpr]
  | .bindingExpr => row [oneOf [FORALL, EXISTS, LAMBDA], bindings, colon, expr]
  | .bindings => oneOf [bindingGroup, row [identifier, star (next identifier)]]
  | .iffExpr => oneOf [impliesExpr, row [impliesExpr, oneOf [IFF, equivalent], iffExpr]]
  | .impliesExpr =>
    oneOf [orExpr, row [orExpr, oneOf [IMPLIES, Mark.implies], impliesExpr]]
  | .orExpr => oneOf [andExpr, row [orExpr, OR, andExpr]]
  | .andExpr => oneOf [notExpr, row [andExpr, oneOf [AND, ampersand], notExpr]]
  | .notExpr => oneOf [comparison, row [NOT, notExpr]]
  | .comparison =>
    oneOf
      [additive,
       row [additive, oneOf [equal, unequal, less, atMost, greater, atLeast], additive]]
  | .additive =>
    oneOf [multiplicative, row [additive, oneOf [Mark.plus, minus], multiplicative]]
  | .multiplicative =>
    oneOf [unary, row [multiplicative, oneOf [asterisk, slash], unary]]
  | .unary => oneOf [application, row [minus, unary]]
  | .application =>
    oneOf [primary, row [application, lparen, expr, star (next expr), rparen]]
  | .primary =>
    oneOf [identifier, number, string, TRUE, FALSE, row [lparen, expr, rparen], tupleExpr,
      ifExpr]
  | .tupleExpr => row [lparen, expr, .plus (next expr), rparen]
  | .ifExpr =>
    row [IF, expr, THEN, expr, star (row [ELSIF, expr, THEN, expr]), ELSE, expr, ENDIF]
  | .identifier => ident
  | .theories => .plus theory
  | .theoryParts => .plus theoryPart
  | .moreFormals => .plus (next theoryFormal)
  | .moreNames => .plus (next identifier)
  | .moreTheoryNames => .plus (next theoryName)
  | .bindingGroups => .plus bindingGroup
  | .moreBindings => .plus (next binding)
  | .moreActuals => .plus (next actual)
  | .moreTypes => .plus (next typeExpr)
  | .moreExprs => .plus (next expr)
  | .elsifBranches => .plus (row [ELSIF, expr, THEN, expr])

end Nonterminal

/-! ## What a definition admits -/

mutual

/-- These tokens are admitted by a definition, and contribute these trees. -/
inductive Reads : Ebnf → List Token → List ParseTree → Prop where
  | token (t : Token) : Reads (.symbol (.terminal t.terminal)) [t] [.leaf t]
  | phrase {n : Nonterminal} {w : List Token} {parts : List ParseTree} :
      Reads n.definition w parts → Reads (.symbol (.phrase n)) w (n.assemble parts)
  | row {es : List Ebnf} {w : List Token} {parts : List ParseTree} :
      ReadsRow es w parts → Reads (.row es) w parts
  | oneOf {e : Ebnf} {es : List Ebnf} {w : List Token} {parts : List ParseTree} :
      e ∈ es → Reads e w parts → Reads (.oneOf es) w parts
  | absent {e : Ebnf} : Reads (.opt e) [] []
  | present {e : Ebnf} {w : List Token} {parts : List ParseTree} :
      Reads e w parts → Reads (.opt e) w parts
  | none {e : Ebnf} : Reads (.star e) [] []
  | more {e : Ebnf} {w v : List Token} {parts last : List ParseTree} :
      Reads (.star e) w parts → Reads e v last → Reads (.star e) (w ++ v) (parts ++ last)
  | plus {e : Ebnf} {w v : List Token} {parts last : List ParseTree} :
      Reads (.star e) w parts → Reads e v last → Reads (.plus e) (w ++ v) (parts ++ last)

/-- These tokens are admitted by definitions one after the other. -/
inductive ReadsRow : List Ebnf → List Token → List ParseTree → Prop where
  | nil : ReadsRow [] [] []
  | cons {e : Ebnf} {es : List Ebnf} {w v : List Token} {parts more : List ParseTree} :
      Reads e w parts → ReadsRow es v more → ReadsRow (e :: es) (w ++ v) (parts ++ more)

end

theorem Reads.star_of_plus {e : Ebnf} {w : List Token} {parts : List ParseTree} :
    Reads (.plus e) w parts → Reads (.star e) w parts
  | .plus many one => .more many one

theorem Reads.of_phrase {n : Nonterminal} {w : List Token} {parts : List ParseTree}
    (h : Reads (.symbol (.phrase n)) w parts) :
    ∃ inner, parts = n.assemble inner ∧ Reads n.definition w inner := by
  cases h with
  | phrase inner => exact ⟨_, rfl, inner⟩

theorem Reads.of_terminal {k : Terminal} {w : List Token} {parts : List ParseTree}
    (h : Reads (.symbol (.terminal k)) w parts) :
    ∃ t, t.terminal = k ∧ w = [t] ∧ parts = [.leaf t] := by
  cases h with
  | token t => exact ⟨t, rfl, rfl, rfl⟩

theorem Reads.of_row {es : List Ebnf} {w : List Token} {parts : List ParseTree}
    (h : Reads (.row es) w parts) : ReadsRow es w parts := by
  cases h with
  | row all => exact all

theorem Reads.of_oneOf {es : List Ebnf} {w : List Token} {parts : List ParseTree}
    (h : Reads (.oneOf es) w parts) : ∃ e ∈ es, Reads e w parts := by
  cases h with
  | oneOf he one => exact ⟨_, he, one⟩

theorem ReadsRow.uncons {e : Ebnf} {es : List Ebnf} {w : List Token} {parts : List ParseTree}
    (h : ReadsRow (e :: es) w parts) :
    ∃ w₁ w₂ parts₁ parts₂, w = w₁ ++ w₂ ∧ parts = parts₁ ++ parts₂ ∧
      Reads e w₁ parts₁ ∧ ReadsRow es w₂ parts₂ := by
  cases h with
  | cons one others => exact ⟨_, _, _, _, rfl, rfl, one, others⟩

/-- What holds of nothing, and goes on to hold with one more, holds of any
number of times. -/
theorem Reads.star_induction {e : Ebnf} {P : List Token → List ParseTree → Prop} (nil : P [] [])
    (more : ∀ {w v : List Token} {parts last : List ParseTree},
      P w parts → Reads e v last → P (w ++ v) (parts ++ last)) :
    ∀ {f : Ebnf} {w : List Token} {parts : List ParseTree},
      Reads f w parts → f = .star e → P w parts
  | _, _, _, .none, _ => nil
  | _, _, _, .more many one, same => by
      obtain rfl := Ebnf.star.inj same
      exact more (many.star_induction nil more rfl) one

theorem ReadsRow.single {e : Ebnf} {w : List Token} {parts : List ParseTree}
    (h : ReadsRow [e] w parts) : Reads e w parts := by
  cases h with
  | cons one rest =>
      cases rest
      simpa using one

theorem ReadsRow.split : ∀ {es fs : List Ebnf} {w : List Token} {parts : List ParseTree},
    ReadsRow (es ++ fs) w parts →
      ∃ w₁ w₂ parts₁ parts₂, w = w₁ ++ w₂ ∧ parts = parts₁ ++ parts₂ ∧
        ReadsRow es w₁ parts₁ ∧ ReadsRow fs w₂ parts₂
  | [], _, w, parts, h => ⟨[], w, [], parts, rfl, rfl, .nil, h⟩
  | _ :: _, _, _, _, .cons one rest => by
      obtain ⟨w₁, w₂, parts₁, parts₂, rfl, rfl, first, second⟩ := rest.split
      exact ⟨_, w₂, _, parts₂, by simp, by simp, .cons one first, second⟩

/-! ## Expanding a definition into bodies -/

namespace Ebnf

/-- The phrase that stands for a repetition. -/
def repetition? : Ebnf → Option Nonterminal
  | symbol (.phrase .theory) => some .theories
  | symbol (.phrase .theoryPart) => some .theoryParts
  | symbol (.phrase .bindingGroup) => some .bindingGroups
  | row [symbol (.terminal (.mark .comma)), symbol (.phrase n)] =>
    match n with
    | .theoryFormal => some .moreFormals
    | .identifier => some .moreNames
    | .theoryName => some .moreTheoryNames
    | .binding => some .moreBindings
    | .actual => some .moreActuals
    | .typeExpr => some .moreTypes
    | .expr => some .moreExprs
    | _ => none
  | row [symbol (.terminal (.keyword .ELSIF)), symbol (.phrase .expr),
      symbol (.terminal (.keyword .THEN)), symbol (.phrase .expr)] => some .elsifBranches
  | _ => none

/-- The body that consists of a repetition. -/
def repeated (e : Ebnf) : List (List Symbol) :=
  e.repetition?.toList.map fun n => [.phrase n]

mutual

/-- The rows of symbols that a definition stands for. -/
def expand : Ebnf → List (List Symbol)
  | symbol x => [[x]]
  | row es => expandRow es
  | oneOf es => expandOneOf es
  | opt e => [] :: e.expand
  | star e => [] :: e.repeated
  | plus e => e.repeated

/-- One row of each definition, joined. -/
def expandRow : List Ebnf → List (List Symbol)
  | [] => [[]]
  | e :: es => e.expand.flatMap fun front => (expandRow es).map (front ++ ·)

/-- The rows of all definitions. -/
def expandOneOf : List Ebnf → List (List Symbol)
  | [] => []
  | e :: es => e.expand ++ expandOneOf es

end

mutual

/-- Has every repetition a phrase that stands for it? -/
def isCovered : Ebnf → Bool
  | symbol _ => true
  | row es => areCovered es
  | oneOf es => areCovered es
  | opt e => e.isCovered
  | star e => e.repetition?.isSome && e.isCovered
  | plus e => e.repetition?.isSome && e.isCovered

/-- Have all repetitions of several definitions such a phrase? -/
def areCovered : List Ebnf → Bool
  | [] => true
  | e :: es => e.isCovered && areCovered es

end

end Ebnf

namespace Nonterminal

open Ebnf

/-- The bodies that a definition asks for.  A repetition grows to the right. -/
def expansion (n : Nonterminal) : List (List Symbol) :=
  match n.definition with
  | .plus e =>
    if e.repetition? = some n then e.expand ++ e.expand.map (.phrase n :: ·) else e.repeated
  | e => e.expand

/-- The bodies of a phrase are the expansion of its definition. -/
theorem mem_bodies_iff {n : Nonterminal} {body : List Symbol} :
    body ∈ n.bodies ↔ body ∈ n.expansion := by
  have same : n.bodies.Perm n.expansion := by cases n <;> decide
  exact same.mem_iff

theorem isCovered_definition (n : Nonterminal) : n.definition.isCovered = true := by
  cases n <;> rfl

theorem assemble_of_spliced {n : Nonterminal} (h : n.role = .spliced) (parts : List ParseTree) :
    n.assemble parts = parts := by
  simp only [assemble, h]

end Nonterminal

namespace Ebnf

/-- What is known of the phrase that stands for a repetition. -/
theorem repetition?_spec {e : Ebnf} {n : Nonterminal} (h : e.repetition? = some n) :
    n.definition = .plus e ∧ n.role = .spliced := by
  unfold repetition? at h
  split at h
  case h_4 m =>
      cases m <;> simp only [Option.some.injEq, reduceCtorEq] at h <;> subst h <;> exact ⟨rfl, rfl⟩
  case h_6 => cases h
  all_goals
    obtain rfl := Option.some.inj h
    exact ⟨rfl, rfl⟩

theorem mem_bodies_of_repetition {e : Ebnf} {n : Nonterminal} (h : e.repetition? = some n)
    {body : List Symbol} :
    body ∈ n.bodies ↔ body ∈ e.expand ∨ ∃ b ∈ e.expand, body = .phrase n :: b := by
  rw [Nonterminal.mem_bodies_iff, Nonterminal.expansion, (repetition?_spec h).1]
  simp only [h, if_true, List.mem_append, List.mem_map, eq_comm]

theorem mem_expandOneOf {es : List Ebnf} {body : List Symbol} :
    body ∈ expandOneOf es ↔ ∃ e ∈ es, body ∈ e.expand := by
  induction es with
  | nil => simp [expandOneOf]
  | cons e es ih => simp [expandOneOf, ih]

theorem isCovered_of_mem {es : List Ebnf} (h : areCovered es = true) {e : Ebnf} (he : e ∈ es) :
    e.isCovered = true := by
  induction es with
  | nil => cases he
  | cons f fs ih =>
      simp only [areCovered, Bool.and_eq_true] at h
      rcases List.mem_cons.mp he with rfl | hf
      · exact h.1
      · exact ih h.2 hf

theorem mem_repeated {e : Ebnf} {body : List Symbol} :
    body ∈ e.repeated ↔ ∃ n, e.repetition? = some n ∧ body = [.phrase n] := by
  simp only [repeated, List.mem_map, Option.mem_toList, eq_comm]

end Ebnf

theorem Nonterminal.mem_bodies_of_definition {n : Nonterminal} {body : List Symbol}
    (h : ∀ e, n.definition = .plus e → e.repetition? ≠ some n) :
    body ∈ n.bodies ↔ body ∈ n.definition.expand := by
  rw [mem_bodies_iff, expansion]
  split
  next e plus =>
      rw [if_neg (h e plus), plus]
      rfl
  next => rfl

/-! ## The two grammars agree -/

/-- One more round of a repetition, as a body of the phrase that stands for it. -/
theorem Derives.repetition {e : Ebnf} {n : Nonterminal} (h : e.repetition? = some n)
    {body : List Symbol} {b : List Symbol} {w v : List Token} {parts last : List ParseTree}
    (hbody : body ∈ (Ebnf.star e).expand) (hb : b ∈ e.expand)
    (many : DerivesAll body w parts) (one : DerivesAll b v last) :
    Derives (.phrase n) (w ++ v) (parts ++ last) := by
  have spliced := Nonterminal.assemble_of_spliced (Ebnf.repetition?_spec h).2
  rw [← spliced (parts ++ last)]
  rcases List.mem_cons.mp hbody with rfl | rep
  · cases many
    exact .phrase ((Ebnf.mem_bodies_of_repetition h).mpr (Or.inl hb)) one
  · obtain ⟨m, hm, rfl⟩ := Ebnf.mem_repeated.mp rep
    obtain rfl : n = m := Option.some.inj (h.symm.trans hm)
    refine .phrase ((Ebnf.mem_bodies_of_repetition h).mpr (Or.inr ⟨b, hb, rfl⟩)) ?_
    exact .cons many.of_single one

mutual

theorem Reads.exists_body : ∀ {e : Ebnf} {w : List Token} {parts : List ParseTree},
    Reads e w parts → e.isCovered = true → ∃ body ∈ e.expand, DerivesAll body w parts
  | _, _, _, .token t, _ => ⟨_, List.mem_singleton.mpr rfl, .single (.token t)⟩
  | _, w, _, @Reads.phrase n _ parts h, _ => by
      obtain ⟨body, hb, all⟩ := h.exists_body n.isCovered_definition
      refine ⟨_, List.mem_singleton.mpr rfl, .single ?_⟩
      by_cases rep : ∃ e, n.definition = .plus e ∧ e.repetition? = some n
      · -- the phrase stands for a repetition: its only body by definition is itself
        obtain ⟨e, plus, rep⟩ := rep
        rw [plus] at hb
        obtain ⟨m, hm, rfl⟩ := Ebnf.mem_repeated.mp hb
        obtain rfl : n = m := Option.some.inj (rep.symm.trans hm)
        rw [Nonterminal.assemble_of_spliced (Ebnf.repetition?_spec rep).2]
        exact all.of_single
      · have plain : ∀ e, n.definition = .plus e → e.repetition? ≠ some n :=
          fun e plus h => rep ⟨e, plus, h⟩
        exact .phrase ((Nonterminal.mem_bodies_of_definition plain).mpr hb) all
  | _, _, _, .row h, covered => h.exists_body covered
  | _, _, _, .oneOf he h, covered => by
      obtain ⟨body, hb, all⟩ := h.exists_body (Ebnf.isCovered_of_mem covered he)
      exact ⟨body, Ebnf.mem_expandOneOf.mpr ⟨_, he, hb⟩, all⟩
  | _, _, _, .absent, _ => ⟨[], List.mem_cons_self, .nil⟩
  | _, _, _, .present h, covered => by
      obtain ⟨body, hb, all⟩ := h.exists_body covered
      exact ⟨body, List.mem_cons_of_mem _ hb, all⟩
  | _, _, _, .none, _ => ⟨[], List.mem_cons_self, .nil⟩
  | _, _, _, .more many one, covered => by
      obtain ⟨body, hbody, all⟩ := many.exists_body covered
      simp only [Ebnf.isCovered, Bool.and_eq_true, Option.isSome_iff_exists] at covered
      obtain ⟨⟨n, rep⟩, covered⟩ := covered
      obtain ⟨b, hb, last⟩ := one.exists_body covered
      refine ⟨_, List.mem_cons_of_mem _ (Ebnf.mem_repeated.mpr ⟨n, rep, rfl⟩), .single ?_⟩
      exact .repetition rep hbody hb all last
  | _, _, _, .plus many one, covered => by
      obtain ⟨body, hbody, all⟩ := many.exists_body covered
      simp only [Ebnf.isCovered, Bool.and_eq_true, Option.isSome_iff_exists] at covered
      obtain ⟨⟨n, rep⟩, covered⟩ := covered
      obtain ⟨b, hb, last⟩ := one.exists_body covered
      refine ⟨_, Ebnf.mem_repeated.mpr ⟨n, rep, rfl⟩, .single ?_⟩
      exact .repetition rep hbody hb all last

theorem ReadsRow.exists_body : ∀ {es : List Ebnf} {w : List Token} {parts : List ParseTree},
    ReadsRow es w parts → Ebnf.areCovered es = true →
      ∃ body ∈ Ebnf.expandRow es, DerivesAll body w parts
  | _, _, _, .nil, _ => ⟨[], List.mem_singleton.mpr rfl, .nil⟩
  | _, _, _, .cons one rest, covered => by
      simp only [Ebnf.areCovered, Bool.and_eq_true] at covered
      obtain ⟨front, hf, first⟩ := one.exists_body covered.1
      obtain ⟨body, hb, second⟩ := rest.exists_body covered.2
      refine ⟨front ++ body, ?_, first.append second⟩
      exact List.mem_flatMap.mpr ⟨front, hf, List.mem_map.mpr ⟨body, hb, rfl⟩⟩

end

/-- A repetition is admitted where the phrase that stands for it is. -/
theorem Reads.of_repeated {e : Ebnf} {body : List Symbol} {w : List Token}
    {parts : List ParseTree} (hb : body ∈ e.repeated)
    (h : ReadsRow (body.map .symbol) w parts) : Reads (.plus e) w parts := by
  obtain ⟨n, rep, rfl⟩ := Ebnf.mem_repeated.mp hb
  obtain ⟨plus, spliced⟩ := Ebnf.repetition?_spec rep
  have read : Reads (.symbol (.phrase n)) w parts := h.single
  cases read with
  | phrase read =>
      rw [plus] at read
      rwa [Nonterminal.assemble_of_spliced spliced]

mutual

theorem Reads.of_body : ∀ (e : Ebnf) {body : List Symbol} {w : List Token}
    {parts : List ParseTree}, body ∈ e.expand → ReadsRow (body.map .symbol) w parts →
      Reads e w parts
  | .symbol x, body, _, _, hb, h => by
      obtain rfl : body = [x] := List.mem_singleton.mp hb
      exact h.single
  | .row es, _, _, _, hb, h => .row (ReadsRow.of_body es hb h)
  | .oneOf es, _, _, _, hb, h => by
      obtain ⟨e, he, read⟩ := Reads.of_body_oneOf es hb h
      exact .oneOf he read
  | .opt e, _, _, _, hb, h => by
      rcases List.mem_cons.mp hb with rfl | hb
      · cases h
        exact .absent
      · exact .present (Reads.of_body e hb h)
  | .star e, _, _, _, hb, h => by
      rcases List.mem_cons.mp hb with rfl | hb
      · cases h
        exact .none
      · exact (Reads.of_repeated hb h).star_of_plus
  | .plus _, _, _, _, hb, h => .of_repeated hb h

theorem ReadsRow.of_body : ∀ (es : List Ebnf) {body : List Symbol} {w : List Token}
    {parts : List ParseTree}, body ∈ Ebnf.expandRow es →
      ReadsRow (body.map .symbol) w parts → ReadsRow es w parts
  | [], body, _, _, hb, h => by
      obtain rfl : body = [] := List.mem_singleton.mp hb
      exact h
  | e :: es, body, _, _, hb, h => by
      obtain ⟨front, hf, hb⟩ := List.mem_flatMap.mp hb
      obtain ⟨rest, hr, rfl⟩ := List.mem_map.mp hb
      rw [List.map_append] at h
      obtain ⟨w₁, w₂, parts₁, parts₂, rfl, rfl, first, second⟩ := h.split
      exact .cons (Reads.of_body e hf first) (ReadsRow.of_body es hr second)

theorem Reads.of_body_oneOf : ∀ (es : List Ebnf) {body : List Symbol} {w : List Token}
    {parts : List ParseTree}, body ∈ Ebnf.expandOneOf es →
      ReadsRow (body.map .symbol) w parts → ∃ e ∈ es, Reads e w parts
  | [], _, _, _, hb, _ => by cases hb
  | e :: es, _, _, _, hb, h => by
      rcases List.mem_append.mp hb with hb | hb
      · exact ⟨e, List.mem_cons_self, Reads.of_body e hb h⟩
      · obtain ⟨f, hf, read⟩ := Reads.of_body_oneOf es hb h
        exact ⟨f, List.mem_cons_of_mem _ hf, read⟩

end

mutual

theorem Derives.reads : ∀ {x : Symbol} {w : List Token} {parts : List ParseTree},
    Derives x w parts → Reads (.symbol x) w parts
  | _, _, _, .token t => .token t
  | _, w, _, @Derives.phrase n body _ parts hb all => by
      have rows := all.reads
      refine .phrase ?_
      by_cases rep : ∃ e, n.definition = .plus e ∧ e.repetition? = some n
      · obtain ⟨e, plus, rep⟩ := rep
        rw [plus]
        rcases (Ebnf.mem_bodies_of_repetition rep).mp hb with once | ⟨b, again, rfl⟩
        · simpa using Reads.plus Reads.none (Reads.of_body e once rows)
        · -- the phrase itself, then one more round
          rw [← List.singleton_append, List.map_append] at rows
          obtain ⟨w₁, w₂, parts₁, parts₂, rfl, rfl, first, second⟩ := rows.split
          have many : Reads (.plus e) w₁ parts₁ :=
            .of_repeated (Ebnf.mem_repeated.mpr ⟨n, rep, rfl⟩) first
          exact .plus many.star_of_plus (Reads.of_body e again second)
      · have plain : ∀ e, n.definition = .plus e → e.repetition? ≠ some n :=
          fun e plus h => rep ⟨e, plus, h⟩
        exact Reads.of_body _ ((Nonterminal.mem_bodies_of_definition plain).mp hb) rows

theorem DerivesAll.reads : ∀ {xs : List Symbol} {w : List Token} {parts : List ParseTree},
    DerivesAll xs w parts → ReadsRow (xs.map .symbol) w parts
  | _, _, _, .nil => .nil
  | _, _, _, .cons one rest => .cons one.reads rest.reads

end

/-- The grammar as it is written down and its bodies admit the same tokens, and
give them the same trees. -/
theorem reads_iff_derives {x : Symbol} {w : List Token} {parts : List ParseTree} :
    Reads (.symbol x) w parts ↔ Derives x w parts := by
  constructor
  · intro h
    obtain ⟨body, hb, all⟩ := h.exists_body rfl
    obtain rfl : body = [x] := List.mem_singleton.mp hb
    exact all.of_single
  · exact Derives.reads

end PvsIndex
