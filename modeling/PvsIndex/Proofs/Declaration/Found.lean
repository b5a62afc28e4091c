import PvsIndex.Proofs.Declaration.Phrases
import PvsIndex.Proofs.Tree.Location

/-!
# What the walk finds

`found` is what the walk yields for a row of trees whose tokens are numbered.
Only the nodes of type and formula declarations yield anything, so a plain
phrase yields nothing (`Derives.found_plain`).  For a declaration it comes down
to two things: which of the children are names (`declaredNames_run`), and that
the node and each of its names can be located.  A declaration that was read
from tokens is never at fault.
-/

namespace PvsIndex

/-- What the walk finds in the trees `parts`, with their tokens numbered. -/
def found (ts : TokenStream) (number : Token → Int) (parts : List ParseTree) :
    List (Except TreeFault Addition) :=
  ((Node.convertAll number parts).flatMap Node.preorder).flatMap fun n => n.findings ts

section Found

variable (ts : TokenStream) (number : Token → Int)

theorem found_append (xs ys : List ParseTree) :
    found ts number (xs ++ ys) = found ts number xs ++ found ts number ys := by
  simp only [found, Node.convertAll_append, List.flatMap_append]

theorem found_node (kind : String) (children : List ParseTree) :
    found ts number [.node kind children] =
      (Node.ofChildren kind (Node.convertAll number children)).findings ts ++
        found ts number children := by
  rw [found, Node.convertAll_singleton, Node.convert?, Option.toList_some,
    List.flatMap_singleton, Node.preorder_eq, List.flatMap_cons]
  rfl

theorem Node.findings_eq_nil {n : Node} (type : n.kind ≠ "type_declaration")
    (formula : n.kind ≠ "formula_declaration") : n.findings ts = [] := by
  rw [findings, if_neg type, if_neg formula]

theorem Node.findings_of_type {n : Node} (h : n.kind = "type_declaration") :
    n.findings ts = n.typeFindings ts := by
  rw [findings, if_pos h]

theorem Node.findings_of_formula {n : Node} (h : n.kind = "formula_declaration") :
    n.findings ts = n.formulaFindings ts := by
  rw [findings, h, if_neg (by decide), if_pos rfl]

theorem Terminal.name_ne_declaration (t : Terminal) :
    t.name ≠ "type_declaration" ∧ t.name ≠ "formula_declaration" := by
  cases t with
  | ident => decide
  | number => decide
  | string => decide
  | mark m => cases m <;> decide
  | keyword k => cases k <;> decide

theorem found_leaf (t : Token) : found ts number [.leaf t] = [] := by
  obtain ⟨type, formula⟩ := t.terminal.name_ne_declaration
  have none_here : (Node.ofToken t (number t)).findings ts = [] :=
    Node.findings_eq_nil ts type formula
  rw [found, Node.convertAll_singleton, Node.convert?, Option.toList_some,
    List.flatMap_singleton, Node.preorder_eq, List.flatMap_cons, none_here]
  rfl

theorem Nonterminal.kind_ne_declaration {n : Nonterminal} (type : n ≠ .typeDeclaration)
    (formula : n ≠ .formulaDeclaration) :
    ∀ kind ∈ n.role.kind?, kind ≠ "type_declaration" ∧ kind ≠ "formula_declaration" := by
  cases n <;> first | decide | exact absurd rfl type | exact absurd rfl formula

/-- Only declarations are found as such; any other phrase has what its parts have. -/
theorem found_assemble {n : Nonterminal} (type : n ≠ .typeDeclaration)
    (formula : n ≠ .formulaDeclaration) (parts : List ParseTree) :
    found ts number (n.assemble parts) = found ts number parts := by
  have inner := Nonterminal.kind_ne_declaration type formula
  have as_node : ∀ kind ∈ n.role.kind?,
      found ts number [.node kind parts] = found ts number parts := by
    intro kind hk
    obtain ⟨type, formula⟩ := inner kind hk
    rw [found_node, Node.findings_eq_nil ts type formula, List.nil_append]
  unfold Nonterminal.assemble
  split
  next kind role => exact as_node kind (by rw [role]; rfl)
  next => rfl
  next kind role =>
      split
      next => rfl
      next => exact as_node kind (by rw [role]; rfl)

end Found

mutual

/-- Nothing is found in a plain phrase. -/
theorem Derives.found_plain (ts : TokenStream) (number : Token → Int) {x : Symbol}
    {w : List Token} {parts : List ParseTree} :
    Derives x w parts → x.isPlain = true → found ts number parts = []
  | .token t, _ => found_leaf ts number t
  | @Derives.phrase n _ _ _ hb all, plain => by
      have type : n ≠ .typeDeclaration := by
        rintro rfl
        cases plain
      have formula : n ≠ .formulaDeclaration := by
        rintro rfl
        cases plain
      rw [found_assemble ts number type formula]
      exact all.found_plain ts number (Symbol.isPlain_closed n plain _ hb)

theorem DerivesAll.found_plain (ts : TokenStream) (number : Token → Int) {xs : List Symbol}
    {w : List Token} {parts : List ParseTree} :
    DerivesAll xs w parts → (∀ x ∈ xs, x.isPlain = true) → found ts number parts = []
  | .nil, _ => rfl
  | .cons one others, plain => by
      rw [found_append, one.found_plain ts number (plain _ List.mem_cons_self),
        others.found_plain ts number fun x hx => plain x (List.mem_cons_of_mem _ hx)]
      rfl

end

/-! ## Names in a declaration -/

/-- The tree of a token in a run of names. -/
def nameTree (t : Token) : ParseTree :=
  if t.terminal = .ident then .node "identifier" [.leaf t] else .leaf t

theorem nameTree_of_ident {t : Token} (h : t.terminal = .ident) :
    nameTree t = .node "identifier" [.leaf t] := if_pos h

theorem nameTree_of_ne {t : Token} (h : t.terminal ≠ .ident) : nameTree t = .leaf t := if_neg h

theorem Reads.of_identifier {w : List Token} {parts : List ParseTree}
    (h : Reads (.symbol (.phrase .identifier)) w parts) :
    ∃ t, t.terminal = .ident ∧ w = [t] ∧ parts = [nameTree t] := by
  obtain ⟨inner, rfl, leaf⟩ := h.of_phrase
  obtain ⟨t, ht, rfl, rfl⟩ := leaf.of_terminal
  refine ⟨t, ht, rfl, ?_⟩
  rw [nameTree_of_ident ht]
  rfl

theorem MoreNames.append {xs ys : List Token} (hx : MoreNames xs) (hy : MoreNames ys) :
    MoreNames (xs ++ ys) := by
  induction hx with
  | nil => exact hy
  | cons hc ht _ ih => exact .cons hc ht ih

theorem Reads.of_moreNames {w : List Token} {parts : List ParseTree}
    (h : Reads (.star (.next .identifier)) w parts) :
    MoreNames w ∧ parts = w.map nameTree := by
  refine Reads.star_induction (P := fun w parts => MoreNames w ∧ parts = w.map nameTree)
    ⟨.nil, rfl⟩ ?_ h rfl
  rintro w v parts last ⟨names, rfl⟩ one
  obtain ⟨_, _, _, _, rfl, rfl, comma, name⟩ := one.of_row.uncons
  obtain ⟨c, hc, rfl, rfl⟩ := comma.of_terminal
  obtain ⟨t, ht, rfl, rfl⟩ := name.single.of_identifier
  have other : c.terminal ≠ .ident := by
    rw [hc]
    nofun
  refine ⟨names.append (.cons hc ht .nil), ?_⟩
  simp [nameTree_of_ne other]

theorem found_run (ts : TokenStream) (number : Token → Int) (run : List Token) :
    found ts number (run.map nameTree) = [] := by
  induction run with
  | nil => rfl
  | cons t run ih =>
      have here : found ts number [nameTree t] = [] := by
        unfold nameTree
        split
        · have type : "identifier" ≠ "type_declaration" := by decide
          have formula : "identifier" ≠ "formula_declaration" := by decide
          rw [found_node, found_leaf, Node.findings_eq_nil ts type formula]
          rfl
        · exact found_leaf ts number t
      rw [List.map_cons, ← List.singleton_append, found_append, here, ih]
      rfl

section Declarations

variable {ts : TokenStream} {number : Token → Int}

/-- The node of a name. -/
def nameNode (number : Token → Int) (t : Token) : Node :=
  .ofChildren "identifier" [.ofToken t (number t)]

theorem convertAll_name {t : Token} (ht : t.terminal = .ident) (trees : List ParseTree) :
    Node.convertAll number (nameTree t :: trees) =
      nameNode number t :: Node.convertAll number trees := by
  rw [nameTree_of_ident ht]
  rfl

theorem convertAll_leaf (t : Token) (trees : List ParseTree) :
    Node.convertAll number (.leaf t :: trees) =
      .ofToken t (number t) :: Node.convertAll number trees := rfl

/-- In front of the colon stand the names of the run. -/
theorem declaredNames_run {more : List Token} (hm : MoreNames more) :
    ∀ {t : Token}, t.terminal = .ident → ∀ {colon : Token}, colon.terminal = .mark .colon →
      ∀ (kind : String) (rest : List ParseTree),
        (Node.ofChildren kind (Node.convertAll number
            ((t :: more).map nameTree ++ .leaf colon :: rest))).declaredNames =
          (names (t :: more)).map (nameNode number) := by
  induction hm with
  | nil =>
      intro t ht colon hc kind rest
      have stop : (Node.ofToken colon (number colon)).kind = "COLON" := by
        rw [Node.ofToken, hc]
        rfl
      simp [Node.declaredNames, Node.ofChildren, convertAll_name ht, convertAll_leaf, stop, names,
        ht, nameNode]
  | @cons c u more hcomma hu hm ih =>
      intro t ht colon hc kind rest
      have others := ih hu hc kind rest
      have no_name : c.terminal ≠ .ident := by simp [hcomma]
      have comma : (Node.ofToken c (number c)).kind = "COMMA" := by
        rw [Node.ofToken, hcomma]
        rfl
      simp only [Node.declaredNames, Node.ofChildren] at others ⊢
      rw [List.map_cons, List.cons_append, convertAll_name ht, List.map_cons, List.cons_append,
        nameTree_of_ne no_name, convertAll_leaf]
      simpa [names, ht, no_name, nameNode, Node.ofChildren, comma] using others

theorem addition_name {t : Token} (located : ts.token? (number t) = some t)
    (kind : DeclarationKind) (declaration : List Char) :
    (nameNode number t).addition kind ts declaration =
      .ok ⟨kind, t.text, t.start.line, t.start.column - 1, declaration⟩ := by
  have here : ts.Locates number [t] := by
    intro u hu
    obtain rfl := List.mem_singleton.mp hu
    exact located
  have span : (nameNode number t).span ts = .ok ⟨t.start, t.stop⟩ :=
    @Node.span_ofChildren ts number [.leaf t] [t] rfl here t t rfl rfl "identifier"
  have text : (nameNode number t).text = t.text := by
    simp [nameNode, Node.ofChildren, Node.ofToken, Node.text, Node.textOfAll]
  rw [Node.addition, span, text]
  rfl

/-- The text of a declaration is what its node reaches over. -/
theorem sourceText_declaration {children : List ParseTree} {w : List Token}
    (tokens : ParseTree.tokensOfAll children = w) (located : ts.Locates number w) (hw : w ≠ [])
    (kind : String) (d : Declared) (hd : d.part = w) :
    (Node.ofChildren kind (Node.convertAll number children)).sourceText ts =
      .ok (d.text ts.source) := by
  obtain ⟨first, hf⟩ := Option.isSome_iff_exists.mp (List.isSome_head?.mpr hw)
  obtain ⟨last, hl⟩ := Option.isSome_iff_exists.mp (List.getLast?_isSome.mpr hw)
  rw [Node.sourceText, Node.span_ofChildren tokens located hf hl kind, Declared.text, hd, hf, hl]
  rfl

theorem found_children (run : List Token) (colon : Token) {rest : List ParseTree}
    (below : found ts number rest = []) :
    found ts number (run.map nameTree ++ .leaf colon :: rest) = [] := by
  rw [found_append, found_run, ← List.singleton_append, found_append, found_leaf, below]
  rfl

/-- A type declaration yields its names, in order. -/
theorem found_type {t colon : Token} {more : List Token} {rest : List ParseTree}
    {w : List Token} (ht : t.terminal = .ident) (hm : MoreNames more)
    (hc : colon.terminal = .mark .colon)
    (tokens : ParseTree.tokensOfAll ((t :: more).map nameTree ++ .leaf colon :: rest) = w)
    (run : t :: more ⊆ w) (below : found ts number rest = []) (located : ts.Locates number w) :
    found ts number [.node "type_declaration" ((t :: more).map nameTree ++ .leaf colon :: rest)] =
      (names (t :: more)).map fun n => .ok (Declared.addition ts.source ⟨.type, n, w⟩) := by
  have hw : w ≠ [] := List.ne_nil_of_mem (run List.mem_cons_self)
  have text := sourceText_declaration tokens located hw "type_declaration" ⟨.type, t, w⟩ rfl
  rw [found_node, found_children _ _ below, List.append_nil, Node.findings_of_type ts rfl,
    Node.typeFindings, text]
  simp only [declaredNames_run hm ht hc, List.map_map]
  refine List.map_congr_left fun n hn => ?_
  have in_run : n ∈ t :: more := List.mem_of_mem_filter hn
  exact addition_name (located n (run in_run)) .type _

/-- A formula declaration yields its name. -/
theorem found_formula {t colon : Token} {rest : List ParseTree} {w : List Token}
    (ht : t.terminal = .ident) (hc : colon.terminal = .mark .colon)
    (tokens : ParseTree.tokensOfAll (nameTree t :: .leaf colon :: rest) = w) (hw : t ∈ w)
    (below : found ts number rest = []) (located : ts.Locates number w) :
    found ts number [.node "formula_declaration" (nameTree t :: .leaf colon :: rest)] =
      [.ok (Declared.addition ts.source ⟨.formula, t, w⟩)] := by
  have text := sourceText_declaration tokens located (List.ne_nil_of_mem hw)
    "formula_declaration" ⟨.formula, t, w⟩ rfl
  have one_name : (Node.ofChildren "formula_declaration" (Node.convertAll number
      (nameTree t :: .leaf colon :: rest))).declaredNames = [nameNode number t] := by
    have run := @declaredNames_run number _ .nil _ ht _ hc "formula_declaration" rest
    simpa [names, ht] using run
  have children : found ts number (nameTree t :: .leaf colon :: rest) = [] :=
    found_children [t] colon below
  rw [found_node, children, List.append_nil, Node.findings_of_formula ts rfl,
    Node.formulaFindings, one_name]
  simp only [text, addition_name (located t hw)]
  rfl

end Declarations

end PvsIndex
