import PvsIndex.Proofs.Parse.Completeness

/-!
# The shape of syntax trees

What a node of a parsed text looks like: a token, or a phrase whose children
are what the definition of the phrase allows.  `Kinds e ks` says that the
definition `e` allows children of the kinds `ks`, in this order; phrases that
leave no node of their own are replaced by their children.

`Reads.fits` is the induction.  It goes along a reading of the tokens and
carries two things at once: the kinds of the nodes that a definition
contributes, and that everything below these nodes has the right shape.  The
second cannot be had without the first, since a phrase becomes a node only
once its children are known.
-/

namespace PvsIndex

/-! ## What a definition allows -/

/-- The kind of the nodes that a phrase makes. -/
def Role.kind? : Role → Option String
  | named kind => some kind
  | folded kind => some kind
  | spliced => none

mutual

/-- A definition allows children of these kinds.  The single child of a folded phrase
stands for the phrase. -/
inductive Kinds : Ebnf → List String → Prop where
  | token (t : Terminal) : Kinds (.symbol (.terminal t)) [t.name]
  | named {n : Nonterminal} {kind : String} :
      n.role = .named kind → Kinds (.symbol (.phrase n)) [kind]
  | spliced {n : Nonterminal} {ks : List String} :
      n.role = .spliced → Kinds n.definition ks → Kinds (.symbol (.phrase n)) ks
  | kept {n : Nonterminal} {kind : String} {ks : List String} :
      n.role = .folded kind → Kinds n.definition ks → ks.length ≠ 1 →
        Kinds (.symbol (.phrase n)) [kind]
  | replaced {n : Nonterminal} {kind k : String} :
      n.role = .folded kind → Kinds n.definition [k] → Kinds (.symbol (.phrase n)) [k]
  | row {es : List Ebnf} {ks : List String} : KindsRow es ks → Kinds (.row es) ks
  | oneOf {e : Ebnf} {es : List Ebnf} {ks : List String} :
      e ∈ es → Kinds e ks → Kinds (.oneOf es) ks
  | absent {e : Ebnf} : Kinds (.opt e) []
  | present {e : Ebnf} {ks : List String} : Kinds e ks → Kinds (.opt e) ks
  | none {e : Ebnf} : Kinds (.star e) []
  | more {e : Ebnf} {ks last : List String} :
      Kinds (.star e) ks → Kinds e last → Kinds (.star e) (ks ++ last)
  | plus {e : Ebnf} {ks last : List String} :
      Kinds (.star e) ks → Kinds e last → Kinds (.plus e) (ks ++ last)

/-- Definitions one after the other allow children of these kinds. -/
inductive KindsRow : List Ebnf → List String → Prop where
  | nil : KindsRow [] []
  | cons {e : Ebnf} {es : List Ebnf} {ks more : List String} :
      Kinds e ks → KindsRow es more → KindsRow (e :: es) (ks ++ more)

end

namespace Node

/-- An inner node is a phrase, and its children are allowed by the definition
of the phrase. -/
structure IsPhrase (node : Node) (n : Nonterminal) : Prop where
  kind : n.role.kind? = some node.kind
  children : node.children ≠ []
  several : n.role = .folded node.kind → node.children.length ≠ 1
  allowed : Kinds n.definition (node.children.map Node.kind)

/-- A node is a token without children, or it is a phrase. -/
def IsSound (node : Node) : Prop :=
  match node.token with
  | some t => node.children = [] ∧ node.kind = t.terminal.name
  | none => ∃ n, node.IsPhrase n

end Node

/-! ## Readings make nodes of the right shape -/

theorem Reads.convertAll_ne_nil {n : Nonterminal} {w : List Token} {parts : List ParseTree}
    (h : Reads n.definition w parts) (number : Token → Int) :
    Node.convertAll number parts ≠ [] := by
  intro empty
  have derived := reads_iff_derives.mp (.phrase h)
  have tokens := derived.tokens
  rw [Nonterminal.tokens_assemble, ← Node.filterMap_token_convertAll number, empty] at tokens
  exact derived.ne_nil tokens.symm

/-- The nodes of a row of trees are of kinds that are allowed, none is missing,
and everything below them is sound. -/
structure Fits (number : Token → Int) (allowed : List String → Prop)
    (parts : List ParseTree) : Prop where
  length : (Node.convertAll number parts).length = parts.length
  kinds : allowed ((Node.convertAll number parts).map Node.kind)
  below : ∀ node ∈ (Node.convertAll number parts).flatMap Node.preorder, node.IsSound

namespace Fits

variable {number : Token → Int} {allowed allowed' both : List String → Prop}
  {parts more : List ParseTree}

theorem weaken (h : Fits number allowed parts) (weaker : ∀ ks, allowed ks → allowed' ks) :
    Fits number allowed' parts where
  length := h.length
  kinds := weaker _ h.kinds
  below := h.below

theorem nil (h : allowed []) : Fits number allowed [] where
  length := rfl
  kinds := h
  below := by
    intro node hn
    cases hn

theorem append (h : Fits number allowed parts) (h' : Fits number allowed' more)
    (join : ∀ ks ks', allowed ks → allowed' ks' → both (ks ++ ks')) :
    Fits number both (parts ++ more) where
  length := by
    rw [Node.convertAll_append, List.length_append, List.length_append, h.length, h'.length]
  kinds := by
    rw [Node.convertAll_append, List.map_append]
    exact join _ _ h.kinds h'.kinds
  below := by
    intro node hn
    rw [Node.convertAll_append, List.flatMap_append, List.mem_append] at hn
    rcases hn with hn | hn
    · exact h.below node hn
    · exact h'.below node hn

/-- A phrase over parts that fit its definition is a node that fits. -/
theorem node {n : Nonterminal} {kind : String} (h : Fits number (Kinds n.definition) parts)
    (nonempty : Node.convertAll number parts ≠ []) (role : n.role.kind? = some kind)
    (several : n.role = .folded kind → parts.length ≠ 1) (hk : allowed [kind]) :
    Fits number allowed [.node kind parts] where
  length := rfl
  kinds := hk
  below := by
    intro node hn
    have here : Node.IsSound (.ofChildren kind (Node.convertAll number parts)) := by
      refine ⟨n, role, nonempty, ?_, h.kinds⟩
      rw [show (Node.ofChildren kind (Node.convertAll number parts)).children =
        Node.convertAll number parts from rfl, h.length]
      exact several
    rw [Node.convertAll_singleton, Node.convert?, Option.toList_some, List.flatMap_singleton,
      Node.preorder_eq] at hn
    rcases List.mem_cons.mp hn with rfl | deeper
    · exact here
    · exact h.below node deeper

theorem phrase {n : Nonterminal} (h : Fits number (Kinds n.definition) parts)
    (nonempty : Node.convertAll number parts ≠ []) :
    Fits number (Kinds (.symbol (.phrase n))) (n.assemble parts) := by
  unfold Nonterminal.assemble
  split
  next kind role =>
      have not_folded : n.role = .folded kind → parts.length ≠ 1 := by
        rw [role]
        nofun
      exact h.node nonempty (by rw [role]; rfl) not_folded (.named role)
  next role => exact h.weaken fun ks allowed => .spliced role allowed
  next kind role =>
      split
      next part =>
          obtain ⟨k, hk⟩ : ∃ k, (Node.convertAll number [part]).map Node.kind = [k] := by
            refine List.length_eq_one_iff.mp ?_
            rw [List.length_map, h.length]
            rfl
          have kinds := h.kinds
          rw [hk] at kinds
          exact ⟨h.length, hk ▸ .replaced role kinds, h.below⟩
      next other =>
          have several : parts.length ≠ 1 := by
            intro single
            obtain ⟨part, rfl⟩ := List.length_eq_one_iff.mp single
            exact other part rfl
          refine h.node nonempty (by rw [role]; rfl) (fun _ => several) (.kept role h.kinds ?_)
          rw [List.length_map, h.length]
          exact several

end Fits

mutual

theorem Reads.fits (number : Token → Int) {e : Ebnf} {w : List Token} {parts : List ParseTree} :
    Reads e w parts → Fits number (Kinds e) parts
  | .token t => by
      refine ⟨rfl, .token t.terminal, ?_⟩
      intro node hn
      obtain rfl : node = .ofToken t (number t) := by
        simpa [Node.convertAll_singleton, Node.convert?, Node.preorder_eq, Node.ofToken] using hn
      exact ⟨rfl, rfl⟩
  | .phrase inner => (inner.fits number).phrase (inner.convertAll_ne_nil number)
  | .row all => (all.fits number).weaken fun _ => .row
  | .oneOf he one => (one.fits number).weaken fun _ => .oneOf he
  | .absent => .nil .absent
  | .present one => (one.fits number).weaken fun _ => .present
  | .none => .nil .none
  | .more many one => (many.fits number).append (one.fits number) fun _ _ => .more
  | .plus many one => (many.fits number).append (one.fits number) fun _ _ => .plus

theorem ReadsRow.fits (number : Token → Int) {es : List Ebnf} {w : List Token}
    {parts : List ParseTree} : ReadsRow es w parts → Fits number (KindsRow es) parts
  | .nil => .nil .nil
  | .cons one others => (one.fits number).append (others.fits number) fun _ _ => .cons

end

/-- Every text without diagnostics has a tree of the right shape over exactly
its tokens. -/
theorem parse_sound (source : List Char) (h : (parse source).diagnostics = []) :
    ∃ root ts, parse source = .tree root ts ∧ root.kind = "start" ∧
      (∀ node ∈ root.preorder, node.IsSound) ∧
      root.preorder.filterMap Node.token = ts.tokens ∧
      ∃ trees, Reads (.symbol (.phrase .start)) ts.tokens trees := by
  obtain ⟨root, ts, parsed⟩ := parse_diagnostics_eq_nil_iff.mp h
  obtain ⟨_, tokens, tree, derived, converted⟩ := parse_eq_tree_iff.mp parsed
  obtain ⟨children, same⟩ := derived.start_node
  obtain rfl : tree = .node "start" children := by simpa using same
  have reading := reads_iff_derives.mpr derived
  have nodes := congrArg (List.flatMap Node.preorder) (Node.convertAll_of_ofParseTree? converted)
  rw [List.flatMap_singleton] at nodes
  refine ⟨root, ts, parsed, ?_, ?_, ?_, _, reading⟩
  · cases converted
    rfl
  · intro node hn
    exact (reading.fits _).below node (by rwa [nodes])
  · rw [← nodes, Node.filterMap_token_convertAll, derived.tokens]

theorem parse_sound_smallTheory :
    ∃ root ts, parse smallTheory = .tree root ts ∧ root.kind = "start" ∧
      root.preorder.filterMap Node.token = ts.tokens := by
  obtain ⟨root, ts, parsed, kind, _, tokens, _⟩ :=
    parse_sound smallTheory diagnostics_smallTheory
  exact ⟨root, ts, parsed, kind, tokens⟩

end PvsIndex
