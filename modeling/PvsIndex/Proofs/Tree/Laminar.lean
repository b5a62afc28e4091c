import Mathlib.Data.List.Chain
import PvsIndex.Proofs.Token.Coverage
import PvsIndex.Proofs.Tree.Numbering

/-!
# Spans over a text

The tokens of a text are a chain: from each to the next there is only layout
(`Token.Adjoins`).  The tokens below a node are a stretch of this chain, and the
span of the node is from the first of them through the last.  So everything about
the spans of a tree is about stretches: those of the children of a node make up the
stretch of the node, and of any two nodes one is below the other, or one has all of
its tokens ahead of those of the other (`Node.Arranged`).

That every node has a span at all is a matter of the grammar: each phrase has
parts, so there is a token below every node (`Node.tokens_ne_nil`).
-/

namespace PvsIndex

/-! ## Stretches of tokens -/

/-- From one token to the next there is only layout. -/
structure Token.Adjoins (source : List Char) (t u : Token) : Prop where
  apart : t.stop.offset ≤ u.start.offset
  layout : IsLayout (source.extract t.stop.offset u.start.offset)

/-- The text is these tokens, with layout between them and nothing around them. -/
inductive SetOut : List Token → List Char → Prop where
  | last (t : Token) : SetOut [t] t.text
  | cons {t : Token} {gap : List Char} {w : List Token} {text : List Char} :
      IsLayout gap → SetOut w text → SetOut (t :: w) (t.text ++ (gap ++ text))

theorem isChain_of_gaps {source : List Char} {stop : Nat} : ∀ {ts : List Token} {start : Nat},
    (∀ gap ∈ gaps source stop start ts, IsLayout gap) →
      ts.Pairwise (fun t u => t.stop.offset ≤ u.start.offset) → ts.IsChain (Token.Adjoins source)
  | [], _, _, _ => .nil
  | [_], _, _, _ => .singleton _
  | t :: u :: ts, _, layout, apart => by
      rw [gaps, List.forall_mem_cons] at layout
      have behind := layout.2
      rw [gaps, List.forall_mem_cons] at behind
      rw [List.pairwise_cons] at apart
      have next : t.Adjoins source u := ⟨apart.1 u List.mem_cons_self, behind.1⟩
      exact .cons_cons next (isChain_of_gaps layout.2 apart.2)

namespace Covers

variable {source : List Char} {stop : Nat} {ts w : List Token} {f l : Token}

/-- Tokens that cover a text are a chain. -/
theorem isChain (h : Covers source stop ts) : ts.IsChain (Token.Adjoins source) :=
  isChain_of_gaps h.gaps h.apart

theorem isChain_of_isInfix (h : Covers source stop ts) (inside : w <:+: ts) :
    w.IsChain (Token.Adjoins source) := by
  obtain ⟨before, after, rfl⟩ := inside
  exact h.isChain.left_of_append.right_of_append

/-- A stretch of tokens begins with its first and ends with its last. -/
theorem bounds (h : Covers source stop ts) (inside : w.Sublist ts) (first : w.head? = some f)
    (last : w.getLast? = some l) {t : Token} (ht : t ∈ w) :
    f.start.offset ≤ t.start.offset ∧ t.stop.offset ≤ l.stop.offset := by
  have apart := h.apart.sublist inside
  have nonempty : ∀ u ∈ w, u.start.offset < u.stop.offset :=
    fun u hu => h.nonempty u (inside.subset hu)
  refine ⟨?_, ?_⟩
  · obtain ⟨behind, rfl⟩ := List.head?_eq_some_iff.mp first
    rcases List.mem_cons.mp ht with rfl | later
    · exact Nat.le_refl _
    · have passed := (List.pairwise_cons.mp apart).1 t later
      exact (nonempty f List.mem_cons_self).le.trans passed
  · obtain ⟨front, rfl⟩ := List.getLast?_eq_some_iff.mp last
    rcases List.mem_append.mp ht with earlier | same
    · have ahead := (List.pairwise_append.mp apart).2.2 t earlier l (List.mem_singleton_self l)
      exact ahead.trans (nonempty l (List.mem_append_right _ (List.mem_singleton_self l))).le
    · rw [List.mem_singleton.mp same]

/-- The text of a stretch is its tokens with what is between them. -/
theorem setOut (h : Covers source stop ts) : ∀ {w : List Token} {f : Token}, w <:+: ts →
    w.head? = some f → w.getLast? = some l →
      SetOut w (source.extract f.start.offset l.stop.offset)
  | [], _, _, first, _ => by cases first
  | [t], _, inside, first, last => by
      rw [List.getLast?_singleton] at last
      cases first
      cases last
      rw [← h.text l (inside.subset (List.mem_singleton_self l))]
      exact .last l
  | t :: u :: w, f, inside, first, last => by
      obtain rfl : t = f := Option.some.inj first
      have shorter : u :: w <:+: ts := (List.suffix_cons t _).isInfix.trans inside
      have last' : (u :: w).getLast? = some l := by rwa [List.getLast?_cons_cons] at last
      have rest := h.setOut shorter rfl last'
      have next := (List.isChain_cons_cons.mp (h.isChain_of_isInfix inside)).1
      have here : t ∈ ts := inside.subset List.mem_cons_self
      have width := (h.nonempty u (shorter.subset List.mem_cons_self)).le
      have ends := (h.bounds shorter.sublist rfl last' List.mem_cons_self).2
      -- cut where the first token ends, and again where the next one starts
      rw [← extract_append_extract source (h.nonempty t here).le (next.apart.trans (width.trans ends)),
        ← extract_append_extract source next.apart (width.trans ends), ← h.text t here]
      exact .cons next.layout rest

end Covers

/-! ## Nodes over stretches -/

namespace Node

/-- There is a token below every node of the right shape. -/
theorem tokens_ne_nil : ∀ n : Node, (∀ m ∈ n.preorder, m.IsSound) → n.tokens ≠ []
  | ⟨kind, children, start, stop, some t⟩, _ => by
      rw [tokens_eq]
      exact List.cons_ne_nil _ _
  | ⟨kind, [], start, stop, none⟩, sound => by
      obtain ⟨_, phrase⟩ := sound _ (mem_preorder_self _)
      exact absurd rfl phrase.children
  | ⟨kind, c :: cs, start, stop, none⟩, sound => by
      have child : c ∈ (Node.mk kind (c :: cs) start stop none).preorder :=
        mem_preorder_of_child List.mem_cons_self
      have below := tokens_ne_nil c fun m hm => sound m (mem_preorder_trans child hm)
      rw [tokens_eq, List.flatMap_cons]
      intro empty
      exact below (List.append_eq_nil_iff.mp (List.append_eq_nil_iff.mp empty).2).1

/-- Children make up their node. -/
theorem IsSound.tokens_eq_flatten {n : Node} (h : n.IsSound) (inner : n.children ≠ []) :
    n.tokens = (n.children.map Node.tokens).flatten := by
  have no_token : n.token = none := by
    rw [IsSound] at h
    split at h
    · exact absurd h.1 inner
    · assumption
  rw [tokens_eq, no_token, List.flatMap_def]
  rfl

/-- Of two nodes over some tokens, one is below the other, or one has all of its
tokens ahead of those of the other. -/
inductive Arranged (ts : List Token) (m n : Node) : Prop where
  | below : m ∈ n.preorder → Arranged ts m n
  | above : n ∈ m.preorder → Arranged ts m n
  | ahead : (m.tokens ++ n.tokens).Sublist ts → Arranged ts m n
  | behind : (n.tokens ++ m.tokens).Sublist ts → Arranged ts m n

theorem Arranged.mono {ts more : List Token} {m n : Node} (h : Arranged ts m n)
    (sub : ts.Sublist more) : Arranged more m n := by
  cases h with
  | below h => exact .below h
  | above h => exact .above h
  | ahead h => exact .ahead (h.trans sub)
  | behind h => exact .behind (h.trans sub)

theorem sublist_tokens_of_mem {ns : List Node} {n : Node} (h : n ∈ ns.flatMap preorder) :
    n.tokens.Sublist (ns.flatMap tokens) := by
  have stretch := ((isInfix_flatMap_preorder ns h).filterMap Node.token).sublist
  rwa [List.filterMap_flatMap] at stretch

mutual

/-- Any two nodes of a tree are arranged. -/
theorem arranged : ∀ (root : Node) {m n : Node}, m ∈ root.preorder → n ∈ root.preorder →
    Arranged root.tokens m n
  | ⟨kind, children, start, stop, token⟩, m, n, hm, hn => by
      rcases List.mem_cons.mp (preorder_eq _ ▸ hm) with rfl | m_below
      · exact .above hn
      · rcases List.mem_cons.mp (preorder_eq _ ▸ hn) with rfl | n_below
        · exact .below hm
        · refine (arrangedAll children m_below n_below).mono ?_
          rw [tokens_eq]
          exact List.sublist_append_right _ _

theorem arrangedAll : ∀ (ns : List Node) {m n : Node}, m ∈ ns.flatMap preorder →
    n ∈ ns.flatMap preorder → Arranged (ns.flatMap tokens) m n
  | [], _, _, hm, _ => by cases hm
  | k :: ns, m, n, hm, hn => by
      rw [List.flatMap_cons, List.mem_append] at hm hn
      rw [List.flatMap_cons]
      rcases hm with m_here | m_there
      · have m_tokens := (isInfix_tokens m_here).sublist
        rcases hn with n_here | n_there
        · exact (arranged k m_here n_here).mono (List.sublist_append_left _ _)
        · exact .ahead (m_tokens.append (sublist_tokens_of_mem n_there))
      · have m_tokens := sublist_tokens_of_mem m_there
        rcases hn with n_here | n_there
        · exact .behind ((isInfix_tokens n_here).sublist.append m_tokens)
        · exact (arrangedAll ns m_there n_there).mono (List.sublist_append_right _ _)

end

/-- The node has these tokens at its ends. -/
structure HasEnds (ts : TokenStream) (n : Node) (f l : Token) : Prop where
  first : n.tokens.head? = some f
  last : n.tokens.getLast? = some l
  span : n.span ts = .ok ⟨f.start, l.stop⟩

theorem IsNumbered.exists_hasEnds {ts : TokenStream} {n : Node}
    (h : n.IsNumbered fun t => lastIndex ts.tokens t) (inside : n.tokens ⊆ ts.tokens)
    (nonempty : n.tokens ≠ []) : ∃ f l, n.HasEnds ts f l := by
  have first := List.head?_eq_some_head nonempty
  have last := List.getLast?_eq_some_getLast nonempty
  have located : ∀ t ∈ n.tokens, ts.token? (lastIndex ts.tokens t) = some t := by
    intro t ht
    have found := ts.locates_lastPosition t (inside ht)
    rwa [lastPosition_eq] at found
  refine ⟨_, _, first, last, ?_⟩
  have start := h.start
  have stop := h.stop
  rw [first, Option.map_some] at start
  rw [last, Option.map_some] at stop
  simp only [Node.span, start, stop, TokenStream.span, located _ (List.head_mem nonempty),
    located _ (List.getLast_mem nonempty)]

end Node

/-! ## Spans -/

namespace Span

/-- One span is inside another. -/
def Within (s r : Span) : Prop :=
  r.start.offset ≤ s.start.offset ∧ s.stop.offset ≤ r.stop.offset

/-- One span has ended where another begins. -/
def Before (s r : Span) : Prop :=
  s.stop.offset ≤ r.start.offset

end Span

namespace Node

/-- The text has the node at this span. -/
structure StandsAt (source : List Char) (ts : TokenStream) (n : Node) (s : Span) : Prop where
  span : n.span ts = .ok s
  inside : s.start.offset < s.stop.offset ∧ s.stop.offset ≤ source.length
  written : n.sourceText ts = .ok (source.extract s.start.offset s.stop.offset)
  setOut : SetOut n.tokens (source.extract s.start.offset s.stop.offset)
  text : n.text = n.tokens.flatMap Token.text

/-- The children of a node fill its span, up to the layout between them. -/
structure IsTiled (source : List Char) (ts : TokenStream) (n : Node) (s : Span) : Prop where
  within : ∀ c ∈ n.children, ∃ r, c.span ts = .ok r ∧ r.Within s
  first : ∀ c ∈ n.children.head?, ∃ r, c.span ts = .ok r ∧ r.start = s.start
  last : ∀ c ∈ n.children.getLast?, ∃ r, c.span ts = .ok r ∧ r.stop = s.stop
  neighbours : n.children.IsChain fun c d => ∃ r r', c.span ts = .ok r ∧ d.span ts = .ok r' ∧
    r.Before r' ∧ IsLayout (source.extract r.stop.offset r'.start.offset)

namespace HasEnds

variable {source : List Char} {stop : Nat} {ts : TokenStream} {m n : Node} {f l f' l' : Token}

theorem standsAt (h : n.HasEnds ts f l) (covers : Covers source source.length ts.tokens)
    (same : ts.source = source) (inside : n.tokens <:+: ts.tokens)
    (text : n.text = n.tokens.flatMap Token.text) : n.StandsAt source ts ⟨f.start, l.stop⟩ where
  span := h.span
  inside := by
    have here := List.mem_of_head? h.first
    have ends := (covers.bounds inside.sublist h.first h.last here).2
    have stops := covers.within l (inside.subset (List.mem_of_getLast? h.last))
    exact ⟨(covers.nonempty f (inside.subset here)).trans_le ends, stops⟩
  written := by
    have slice := ts.slice_eq_extract ⟨f.start, l.stop⟩
    rw [same] at slice
    rw [Node.sourceText, h.span, ← slice]
    rfl
  setOut := covers.setOut inside h.first h.last
  text := text

theorem within (h : m.HasEnds ts f l) (h' : n.HasEnds ts f' l')
    (covers : Covers source stop ts.tokens) (inside : n.tokens.Sublist ts.tokens)
    (sub : m.tokens ⊆ n.tokens) : Span.Within ⟨f.start, l.stop⟩ ⟨f'.start, l'.stop⟩ :=
  ⟨(covers.bounds inside h'.first h'.last (sub (List.mem_of_head? h.first))).1,
    (covers.bounds inside h'.first h'.last (sub (List.mem_of_getLast? h.last))).2⟩

theorem before (h : m.HasEnds ts f l) (h' : n.HasEnds ts f' l')
    (covers : Covers source stop ts.tokens) (ahead : (m.tokens ++ n.tokens).Sublist ts.tokens) :
    Span.Before ⟨f.start, l.stop⟩ ⟨f'.start, l'.stop⟩ := by
  have apart := (List.pairwise_append.mp (covers.apart.sublist ahead)).2.2
  exact apart l (List.mem_of_getLast? h.last) f' (List.mem_of_head? h'.first)

/-- The spans of nodes that are arranged are one inside the other, or apart. -/
theorem laminar (h : m.HasEnds ts f l) (h' : n.HasEnds ts f' l')
    (covers : Covers source stop ts.tokens) (inside : m.tokens <:+: ts.tokens)
    (inside' : n.tokens <:+: ts.tokens) (arranged : Arranged ts.tokens m n) :
    Span.Within ⟨f.start, l.stop⟩ ⟨f'.start, l'.stop⟩ ∨
      Span.Within ⟨f'.start, l'.stop⟩ ⟨f.start, l.stop⟩ ∨
      Span.Before ⟨f.start, l.stop⟩ ⟨f'.start, l'.stop⟩ ∨
      Span.Before ⟨f'.start, l'.stop⟩ ⟨f.start, l.stop⟩ := by
  cases arranged with
  | below part =>
      have sub := (isInfix_tokens part).subset
      exact .inl (h.within h' covers inside'.sublist sub)
  | above part =>
      have sub := (isInfix_tokens part).subset
      exact .inr (.inl (h'.within h covers inside.sublist sub))
  | ahead first => exact .inr (.inr (.inl (h.before h' covers first)))
  | behind first => exact .inr (.inr (.inr (h'.before h covers first)))

theorem isTiled (h : n.HasEnds ts f l) (covers : Covers source stop ts.tokens)
    (sound : n.IsSound) (inside : n.tokens <:+: ts.tokens)
    (each : ∀ c ∈ n.children, ∃ f l, c.HasEnds ts f l) :
    n.IsTiled source ts ⟨f.start, l.stop⟩ where
  within := by
    intro c hc
    obtain ⟨f', l', ends⟩ := each c hc
    have sub := (isInfix_tokens (mem_preorder_of_child hc)).subset
    exact ⟨_, ends.span, ends.within h covers inside.sublist sub⟩
  first := by
    intro c hc
    obtain ⟨f', l', ends⟩ := each c (List.mem_of_head? hc)
    obtain ⟨cs, children⟩ := List.head?_eq_some_iff.mp hc
    have whole := sound.tokens_eq_flatten (List.ne_nil_of_mem (List.mem_of_head? hc))
    rw [children, List.map_cons, List.flatten_cons] at whole
    have same := h.first
    rw [whole, List.head?_append, ends.first, Option.some_or] at same
    exact ⟨_, ends.span, by rw [Option.some.inj same]⟩
  last := by
    intro c hc
    obtain ⟨f', l', ends⟩ := each c (List.mem_of_getLast? hc)
    obtain ⟨cs, children⟩ := List.getLast?_eq_some_iff.mp hc
    have whole := sound.tokens_eq_flatten (List.ne_nil_of_mem (List.mem_of_getLast? hc))
    rw [children, List.map_append, List.flatten_append, List.map_singleton,
      List.flatten_singleton] at whole
    have same := h.last
    rw [whole, List.getLast?_append, ends.last, Option.some_or] at same
    exact ⟨_, ends.span, by rw [Option.some.inj same]⟩
  neighbours := by
    by_cases leaf : n.children = []
    · rw [leaf]
      exact .nil
    have whole := sound.tokens_eq_flatten leaf
    have chain := covers.isChain_of_isInfix inside
    have full : [] ∉ n.children.map Node.tokens := by
      intro empty
      obtain ⟨c, hc, nothing⟩ := List.mem_map.mp empty
      obtain ⟨f', l', ends⟩ := each c hc
      have first := ends.first
      rw [nothing] at first
      cases first
    rw [whole, List.isChain_flatten full, List.isChain_map] at chain
    refine chain.2.imp_of_mem_imp ?_
    intro c d hc hd next
    obtain ⟨_, l', ends⟩ := each c hc
    obtain ⟨f', _, ends'⟩ := each d hd
    have adjoins := next l' ends.last f' ends'.first
    exact ⟨_, _, ends.span, ends'.span, adjoins.apart, adjoins.layout⟩

end HasEnds

end Node

/-! ## The tree of a text -/

/-- All nodes in the tree of a text have the right shape and reach from a token to a
token. -/
theorem nodes_of_parse {source : List Char} {root : Node} {ts : TokenStream}
    (parsed : parse source = .tree root ts) :
    root.tokens = ts.tokens ∧ ∀ n ∈ root.preorder,
      n.IsSound ∧ n.text = n.tokens.flatMap Token.text ∧ ∃ f l, n.HasEnds ts f l := by
  obtain ⟨_, _, tree, derived, converted⟩ := parse_eq_tree_iff.mp parsed
  have fits := (reads_iff_derives.mpr derived).fits
    (Node.lastPosition tree.tokens.reverse tree.tokens.length)
  have whole : tree.tokens = ts.tokens := derived.tree_tokens
  have all : root.tokens = ts.tokens := (Node.tokens_of_ofParseTree? converted).trans whole
  have sound : ∀ n ∈ root.preorder, n.IsSound := by
    intro n hn
    refine fits.below n ?_
    rwa [Node.convertAll_of_ofParseTree? converted, List.flatMap_singleton]
  refine ⟨all, ?_⟩
  intro n hn
  have inside := (Node.isInfix_tokens hn).subset
  have nonempty := n.tokens_ne_nil fun m hm => sound m (Node.mem_preorder_trans hn hm)
  have numbered := isNumbered_of_ofParseTree? converted hn
  rw [all] at inside
  rw [whole] at numbered
  exact ⟨sound n hn, numbered.text, numbered.exists_hasEnds inside nonempty⟩

/-- In the tree of a text that is read without diagnostics every node has a span, and
the text has the node there, as its tokens with the layout between them.  Children
fill their node up to the layout between them, and the root takes up the tokens from
the first to the last.  Any two spans are one inside the other, or one before the
other. -/
theorem spans_laminar (source : List Char) (clean : (parse source).diagnostics = []) :
    ∃ root ts, parse source = .tree root ts ∧ tokenize source = .ok ts.tokens ∧
      (∃ f l, ts.tokens.head? = some f ∧ ts.tokens.getLast? = some l ∧
        root.span ts = .ok ⟨f.start, l.stop⟩) ∧
      (∀ n ∈ root.preorder, ∃ s, n.StandsAt source ts s ∧ n.IsTiled source ts s) ∧
      ∀ m ∈ root.preorder, ∀ n ∈ root.preorder, ∃ s r, m.span ts = .ok s ∧ n.span ts = .ok r ∧
        (s.Within r ∨ r.Within s ∨ s.Before r ∨ r.Before s) := by
  obtain ⟨root, ts, parsed⟩ := parse_diagnostics_eq_nil_iff.mp clean
  obtain ⟨same, tokens, _⟩ := parse_eq_tree_iff.mp parsed
  obtain ⟨all, each⟩ := nodes_of_parse parsed
  have covers := covers_of_tokenize tokens []
  rw [List.append_nil] at covers
  have inside : ∀ n ∈ root.preorder, n.tokens <:+: ts.tokens := by
    intro n hn
    rw [← all]
    exact Node.isInfix_tokens hn
  refine ⟨root, ts, parsed, tokens, ?_, ?_, ?_⟩
  · obtain ⟨_, _, f, l, ends⟩ := each root root.mem_preorder_self
    rw [← all]
    exact ⟨f, l, ends.first, ends.last, ends.span⟩
  · intro n hn
    obtain ⟨sound, text, f, l, ends⟩ := each n hn
    have children : ∀ c ∈ n.children, ∃ f l, c.HasEnds ts f l :=
      fun c hc => (each c (Node.mem_preorder_trans hn (Node.mem_preorder_of_child hc))).2.2
    exact ⟨_, ends.standsAt covers same (inside n hn) text,
      ends.isTiled covers sound (inside n hn) children⟩
  · intro m hm n hn
    obtain ⟨_, _, f, l, m_ends⟩ := each m hm
    obtain ⟨_, _, f', l', n_ends⟩ := each n hn
    have arranged := root.arranged hm hn
    rw [all] at arranged
    exact ⟨_, _, m_ends.span, n_ends.span,
      m_ends.laminar n_ends covers (inside m hm) (inside n hn) arranged⟩

theorem spans_laminar_smallTheory :
    (parse smallTheory).diagnostics = [] ∧
      ∃ root ts, parse smallTheory = .tree root ts ∧
        ∀ n ∈ root.preorder, ∃ s, n.StandsAt smallTheory ts s ∧ n.IsTiled smallTheory ts s := by
  obtain ⟨root, ts, parsed, _, _, each, _⟩ := spans_laminar smallTheory diagnostics_smallTheory
  exact ⟨diagnostics_smallTheory, root, ts, parsed, each⟩

end PvsIndex
