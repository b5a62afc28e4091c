import PvsIndex.Parse.Result
import PvsIndex.Proofs.Grammar.Ebnf
import PvsIndex.Proofs.Parse.Verdict
import PvsIndex.Proofs.Tree.Conversion

/-!
# Parsing a text

`parse_eq_tree_iff` says when parsing gives a tree and which one: the text is
readable, its tokens are a sentence, and the tree is the one of a derivation.
Both directions come from the verdict on the tokens.  What is added here is
that a run has diagnostics exactly when something went wrong in it, and that
the derivation of a sentence makes a single tree.

Completeness is this from right to left, for the grammar as it is written down.
What the tree is can be said there without speaking of its making: it has the shape
of the tree of the derivation, with the tokens of the text at its leaves.
-/

namespace PvsIndex

/-- The diagnostics of an outcome; a tree has none. -/
def Parsed.diagnostics : Parsed → List Diagnostic
  | tree _ _ => []
  | rejected diagnostics => diagnostics

/-! ## Runs of whole texts -/

/-- A text has the diagnostics of its run. -/
theorem parse_diagnostics (source : List Char) :
    (parse source).diagnostics = (Run.ofSource source).diagnostics := by
  simp only [parse]
  split
  next => rfl
  next quiet =>
      rw [Bool.not_eq_true, Collector.any_eq_false] at quiet
      split
      next => exact quiet.symm
      next => rfl

/-- A tree is the root of a run without diagnostics. -/
theorem parse_eq_tree_iff_run {source : List Char} {root : Node} {ts : TokenStream} :
    parse source = .tree root ts ↔
      (Run.ofSource source).diagnostics = [] ∧
        ∃ tree, (Run.ofSource source).ending.root? = some (tree, root) ∧
          ts = ⟨source, tree.tokens⟩ := by
  constructor
  · intro h
    have clean := parse_diagnostics source
    rw [h, Parsed.diagnostics] at clean
    refine ⟨clean.symm, ?_⟩
    simp only [parse] at h
    split at h
    next => cases h
    next =>
        split at h
        next tree root' ending =>
            cases h
            exact ⟨tree, ending, rfl⟩
        next => cases h
  · rintro ⟨clean, tree, ending, rfl⟩
    have quiet : (Run.ofSource source).collector.any = false := Collector.any_eq_false.mpr clean
    simp only [parse, quiet, ending, Bool.false_eq_true, if_false]

namespace Run

theorem diagnostics_eq_nil_iff {r : Run} :
    r.diagnostics = [] ↔
      (∀ e ∈ r.events, e.fault? = none) ∧ ∃ trees, r.ending = .accepted trees := by
  have ending : r.ending.fault? = none ↔ ∃ trees, r.ending = .accepted trees := by
    cases r.ending <;> simp [Ending.fault?]
  simp [diagnostics_eq_map, faults, ending]

/-- A text without a fault is a sentence, and the other way round. -/
theorem ofSource_clean_iff {source : List Char} {trees : List ParseTree} :
    (ofSource source).diagnostics = [] ∧ (ofSource source).ending = .accepted trees ↔
      ∃ ts, tokenize source = .ok ts ∧ Derives (.phrase .start) ts trees := by
  have clean := @steps_clean_iff trees ((scan source).filterMap Piece.token?).getLast?
    (scan source) []
  simp only [Stack.verdict_eq_some_iff] at clean
  rw [tokenize, ← clean, diagnostics_eq_nil_iff]
  constructor
  · rintro ⟨⟨faultless, _⟩, accepted⟩
    exact ⟨faultless, accepted⟩
  · rintro ⟨faultless, accepted⟩
    exact ⟨⟨faultless, trees, accepted⟩, accepted⟩

end Run

/-! ## The tree of a text -/

/-- A sentence makes one tree, and every part of the text is below its root. -/
theorem Derives.start_node {w : List Token} {trees : List ParseTree}
    (h : Derives (.phrase .start) w trees) : ∃ children, trees = [.node "start" children] := by
  cases h with
  | phrase hb all => exact ⟨_, rfl⟩

theorem Derives.start_unique {w : List Token} {trees trees' : List ParseTree}
    (h : Derives (.phrase .start) w trees) (h' : Derives (.phrase .start) w trees') :
    trees = trees' :=
  Option.some.inj ((Stack.verdict_of_derives h).symm.trans (Stack.verdict_of_derives h'))

theorem Ending.root?_eq_some_iff {e : Ending} {tree : ParseTree} {root : Node} :
    e.root? = some (tree, root) ↔ e = .accepted [tree] ∧ Node.ofParseTree? tree = some root := by
  unfold Ending.root?
  split
  next tree' => cases converted : Node.ofParseTree? tree' <;> grind
  next other =>
      refine ⟨nofun, ?_⟩
      rintro ⟨rfl, _⟩
      exact absurd rfl (other tree)

/-- Parsing gives a tree for the sentences among the readable texts, and for
nothing else. -/
theorem parse_eq_tree_iff {source : List Char} {root : Node} {ts : TokenStream} :
    parse source = .tree root ts ↔
      ts.source = source ∧ tokenize source = .ok ts.tokens ∧
        ∃ tree, Derives (.phrase .start) ts.tokens [tree] ∧ Node.ofParseTree? tree = some root := by
  constructor
  · intro h
    obtain ⟨clean, tree, ending, rfl⟩ := parse_eq_tree_iff_run.mp h
    obtain ⟨accepted, converted⟩ := Ending.root?_eq_some_iff.mp ending
    obtain ⟨ts, tokens, derived⟩ := Run.ofSource_clean_iff.mp ⟨clean, accepted⟩
    have same : tree.tokens = ts := derived.tree_tokens
    exact ⟨rfl, same ▸ tokens, tree, same ▸ derived, converted⟩
  · rintro ⟨rfl, tokens, tree, derived, converted⟩
    obtain ⟨clean, accepted⟩ := Run.ofSource_clean_iff.mpr ⟨ts.tokens, tokens, derived⟩
    have ending := Ending.root?_eq_some_iff.mpr ⟨accepted, converted⟩
    have same : ts = ⟨ts.source, tree.tokens⟩ := by rw [derived.tree_tokens]
    exact parse_eq_tree_iff_run.mpr ⟨clean, tree, ending, same⟩

/-- A sentence has a syntax tree. -/
theorem Derives.exists_root {w : List Token} {trees : List ParseTree}
    (h : Derives (.phrase .start) w trees) :
    ∃ tree root, trees = [tree] ∧ Node.ofParseTree? tree = some root := by
  obtain ⟨children, rfl⟩ := h.start_node
  exact ⟨_, _, rfl, rfl⟩

/-- An outcome with diagnostics is nothing else. -/
theorem Parsed.eq_rejected {parsed : Parsed} (h : parsed.diagnostics ≠ []) :
    parsed = .rejected parsed.diagnostics := by
  cases parsed with
  | tree root ts => exact absurd rfl h
  | rejected diagnostics => rfl

/-- An outcome without diagnostics is a tree. -/
theorem parse_diagnostics_eq_nil_iff {source : List Char} :
    (parse source).diagnostics = [] ↔ ∃ root ts, parse source = .tree root ts := by
  constructor
  · intro h
    cases outcome : parse source with
    | tree root ts => exact ⟨root, ts, rfl⟩
    | rejected diagnostics =>
        -- an accepted run always has a root, so there is no other way to be rejected
        have clean := (parse_diagnostics source).symm.trans h
        obtain ⟨_, trees, accepted⟩ := Run.diagnostics_eq_nil_iff.mp clean
        obtain ⟨ts, tokens, derived⟩ := Run.ofSource_clean_iff.mp ⟨clean, accepted⟩
        obtain ⟨tree, root, rfl, converted⟩ := derived.exists_root
        have parsed : parse source = .tree root ⟨source, ts⟩ :=
          parse_eq_tree_iff.mpr ⟨rfl, tokens, tree, derived, converted⟩
        rw [outcome] at parsed
        cases parsed
  · rintro ⟨root, ts, parsed⟩
    rw [parsed, Parsed.diagnostics]

/-! ## Completeness -/

theorem parse_eq_tree_of_reads {source : List Char} {ts : List Token} {trees : List ParseTree}
    (tokens : tokenize source = .ok ts) (reading : Reads (.symbol (.phrase .start)) ts trees) :
    ∃ tree root, trees = [tree] ∧ Node.ofParseTree? tree = some root ∧
      parse source = .tree root ⟨source, ts⟩ := by
  have derived := reads_iff_derives.mp reading
  obtain ⟨tree, root, rfl, converted⟩ := derived.exists_root
  exact ⟨tree, root, rfl, converted,
    parse_eq_tree_iff.mpr ⟨rfl, tokens, tree, derived, converted⟩⟩

/-- The parser misses no text of the language, and its tree is the one that any
derivation makes: the root has the shape of that tree, and the tokens of the text
are at its leaves. -/
theorem parse_complete :
    (∀ (source : List Char) (ts : List Token) (trees : List ParseTree),
      tokenize source = .ok ts → Reads (.symbol (.phrase .start)) ts trees →
        (parse source).diagnostics = [] ∧
          ∃ tree root, trees = [tree] ∧ Node.ofParseTree? tree = some root ∧
            ShapedLike tree root ∧ root.tokens = ts ∧
            parse source = .tree root ⟨source, ts⟩) ∧
      ∀ (w : List Token) (trees trees' : List ParseTree),
        Reads (.symbol (.phrase .start)) w trees → Reads (.symbol (.phrase .start)) w trees' →
          trees = trees' := by
  constructor
  · intro source ts trees tokens reading
    obtain ⟨tree, root, rfl, converted, parsed⟩ := parse_eq_tree_of_reads tokens reading
    have leaves : root.tokens = ts :=
      (Node.tokens_of_ofParseTree? converted).trans (reads_iff_derives.mp reading).tree_tokens
    have shape := Node.shapedLike_of_ofParseTree? converted
    refine ⟨?_, tree, root, rfl, converted, shape, leaves, parsed⟩
    rw [parsed, Parsed.diagnostics]
  · intro w trees trees' first second
    exact (reads_iff_derives.mp first).start_unique (reads_iff_derives.mp second)

/-- A theory with a declaration of each indexed kind. -/
def smallTheory : List Char :=
  "T: THEORY BEGIN m, n: TYPE c: AXIOM p END T".toList

/-- The tokens of the small theory. -/
def smallTheoryTokens : List Token :=
  [⟨⟨0, 1, 1⟩, .ident, ['T']⟩, ⟨⟨1, 1, 2⟩, .mark .colon, [':']⟩,
   ⟨⟨3, 1, 4⟩, .keyword .THEORY, "THEORY".toList⟩,
   ⟨⟨10, 1, 11⟩, .keyword .BEGIN, "BEGIN".toList⟩,
   ⟨⟨16, 1, 17⟩, .ident, ['m']⟩, ⟨⟨17, 1, 18⟩, .mark .comma, [',']⟩,
   ⟨⟨19, 1, 20⟩, .ident, ['n']⟩, ⟨⟨20, 1, 21⟩, .mark .colon, [':']⟩,
   ⟨⟨22, 1, 23⟩, .keyword .TYPE, "TYPE".toList⟩,
   ⟨⟨27, 1, 28⟩, .ident, ['c']⟩, ⟨⟨28, 1, 29⟩, .mark .colon, [':']⟩,
   ⟨⟨30, 1, 31⟩, .keyword .AXIOM, "AXIOM".toList⟩, ⟨⟨36, 1, 37⟩, .ident, ['p']⟩,
   ⟨⟨38, 1, 39⟩, .keyword .END, "END".toList⟩, ⟨⟨42, 1, 43⟩, .ident, ['T']⟩]

theorem tokenize_smallTheory : tokenize smallTheory = .ok smallTheoryTokens := by
  rfl

theorem Reads.name (t : Token) (h : t.terminal = .ident) :
    Reads (.symbol (.phrase .identifier)) [t] [.node "identifier" [.leaf t]] := by
  have leaf := Reads.token t
  rw [h] at leaf
  exact .phrase leaf

theorem smallTheory_reads :
    ∃ trees, Reads (.symbol (.phrase .start)) smallTheoryTokens trees := by
  have names := Reads.more (.none (e := .next .identifier)) <| .row <|
    .cons (.token ⟨⟨17, 1, 18⟩, .mark .comma, [',']⟩) <|
    .cons (.name ⟨⟨19, 1, 20⟩, .ident, ['n']⟩ rfl) .nil
  have types := Reads.phrase (n := .typeDeclaration) <| .row <|
    .cons (.name ⟨⟨16, 1, 17⟩, .ident, ['m']⟩ rfl) <| .cons names <|
    .cons (.token ⟨⟨20, 1, 21⟩, .mark .colon, [':']⟩) <|
    .cons (.phrase (.oneOf (.head _) (.row
      (.cons (.token ⟨⟨22, 1, 23⟩, .keyword .TYPE, "TYPE".toList⟩) (.cons .absent .nil))))) <|
    .cons .absent .nil
  have formula := Reads.phrase (n := .formulaDeclaration) <| .row <|
    .cons (.name ⟨⟨27, 1, 28⟩, .ident, ['c']⟩ rfl) <|
    .cons (.token ⟨⟨28, 1, 29⟩, .mark .colon, [':']⟩) <|
    .cons (.phrase (.oneOf (.head _) (.token ⟨⟨30, 1, 31⟩, .keyword .AXIOM, "AXIOM".toList⟩))) <|
    .cons (.phrase <| .oneOf (.tail _ (.head _)) <| .phrase <| .oneOf (.head _) <|
      .phrase <| .oneOf (.head _) <| .phrase <| .oneOf (.head _) <|
      .phrase <| .oneOf (.head _) <| .phrase <| .oneOf (.head _) <|
      .phrase <| .oneOf (.head _) <| .phrase <| .oneOf (.head _) <|
      .phrase <| .oneOf (.head _) <| .phrase <| .oneOf (.head _) <|
      .phrase <| .oneOf (.head _) <| .phrase <| .oneOf (.head _) <|
      .name ⟨⟨36, 1, 37⟩, .ident, ['p']⟩ rfl) .nil
  have theory := Reads.phrase (n := .theory) <| .row <|
    .cons (.name ⟨⟨0, 1, 1⟩, .ident, ['T']⟩ rfl) <| .cons .absent <|
    .cons (.token ⟨⟨1, 1, 2⟩, .mark .colon, [':']⟩) <|
    .cons (.token ⟨⟨3, 1, 4⟩, .keyword .THEORY, "THEORY".toList⟩) <|
    .cons (.token ⟨⟨10, 1, 11⟩, .keyword .BEGIN, "BEGIN".toList⟩) <|
    .cons (.more (.more .none (.phrase (.oneOf (.tail _ (.head _)) types)))
      (.phrase (.oneOf (.tail _ (.tail _ (.head _))) formula))) <|
    .cons (.token ⟨⟨38, 1, 39⟩, .keyword .END, "END".toList⟩) <|
    .cons (.name ⟨⟨42, 1, 43⟩, .ident, ['T']⟩ rfl) .nil
  exact ⟨_, .phrase (.plus .none theory)⟩

theorem parse_complete_smallTheory :
    ∃ tree root, Reads (.symbol (.phrase .start)) smallTheoryTokens [tree] ∧
      ShapedLike tree root ∧ root.tokens = smallTheoryTokens ∧
      parse smallTheory = .tree root ⟨smallTheory, smallTheoryTokens⟩ := by
  obtain ⟨trees, reading⟩ := smallTheory_reads
  obtain ⟨_, tree, root, rfl, _, shape, leaves, parsed⟩ :=
    parse_complete.1 _ _ _ tokenize_smallTheory reading
  exact ⟨tree, root, reading, shape, leaves, parsed⟩

theorem diagnostics_smallTheory : (parse smallTheory).diagnostics = [] := by
  obtain ⟨trees, reading⟩ := smallTheory_reads
  obtain ⟨tree, root, _, _, parsed⟩ := parse_eq_tree_of_reads tokenize_smallTheory reading
  rw [parsed, Parsed.diagnostics]

end PvsIndex
