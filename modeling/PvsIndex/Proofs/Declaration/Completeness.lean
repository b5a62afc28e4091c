import PvsIndex.Proofs.Declaration.Parts
import PvsIndex.Report

/-!
# The index of a text

The walk and the scan agree on whole theories, and so on whole texts.  What is
left for a theory is its frame.  The names of formals look like declared types
to the scan, colon and keyword included, but they stand in brackets; all other
tokens of the frame announce nothing.
-/

namespace PvsIndex

/-! ## Theory parts -/

theorem Reads.agrees_part {w : List Token} {parts : List ParseTree}
    (h : Reads (.symbol (.phrase .theoryPart)) w parts) :
    ∃ ds, Agrees (.symbol (.phrase .theoryPart)) w parts ds := by
  obtain ⟨inner, rfl, part⟩ := h.of_phrase
  obtain ⟨e, he, reading⟩ := part.of_oneOf
  simp only [List.mem_cons, List.not_mem_nil, or_false] at he
  rcases he with rfl | rfl | rfl | rfl | rfl
  · exact ⟨[], (reads_iff_derives.mp reading).agrees_silent rfl rfl rfl⟩
  · exact ⟨_, reading.agrees_type⟩
  · exact ⟨_, reading.agrees_formula⟩
  · exact ⟨[], (reads_iff_derives.mp reading).agrees_silent rfl rfl rfl⟩
  · exact ⟨[], (reads_iff_derives.mp reading).agrees_silent rfl rfl rfl⟩

/-- Agreement goes over from one time to any number of times. -/
theorem Reads.agrees_star {e : Ebnf}
    (one : ∀ {w : List Token} {parts : List ParseTree}, Reads e w parts →
      ∃ ds, Agrees e w parts ds)
    {w : List Token} {parts : List ParseTree} (h : Reads (.star e) w parts) :
    ∃ ds, Agrees (.star e) w parts ds := by
  refine (Reads.star_induction (P := fun w parts =>
    Reads (.star e) w parts ∧ ∃ ds, Agrees (.star e) w parts ds) ⟨.none, [], .nil _⟩ ?_ h rfl).2
  rintro w v parts last ⟨many, ds, before⟩ reading
  obtain ⟨es, here⟩ := one reading
  refine ⟨.more many reading, ds ++ es, before.append here ⟨_, many⟩ ⟨_, reading⟩ ?_⟩
  rintro x y ⟨_, hx⟩ ⟨_, hy⟩
  exact ⟨_, .more hx hy⟩

/-! ## The frame of a theory -/

/-- Inside the brackets of the formals, square brackets are open. -/
theorem DerivesAll.inside_brackets {xs : List Symbol} {w : List Token} {parts : List ParseTree}
    (h : DerivesAll (.terminal (.mark .lsquare) :: (xs ++ [.terminal (.mark .rsquare)])) w parts)
    (settled : settles .square 0 xs = true) :
    ∀ a t b, w = a ++ t :: b → t.terminal = .ident → 0 < Bracket.square.level a := by
  cases h with
  | cons opening rest =>
      obtain ⟨l, hl, rfl, rfl⟩ := opening.of_terminal
      obtain ⟨inner, _, _, _, rfl, rfl, all, closing⟩ := rest.split
      obtain ⟨r, hr, rfl, rfl⟩ := closing.of_single.of_terminal
      intro a t b split ht
      cases a with
      | nil =>
          obtain ⟨rfl, _⟩ := List.cons.inj split
          rw [ht] at hl
          cases hl
      | cons first a =>
          obtain ⟨rfl, tail⟩ := List.cons.inj split
          have behind : inner ++ [r] = a ++ t :: b := tail
          have before : a <+: inner := by
            rcases List.append_eq_append_iff.mp behind with ⟨q, rfl, hq⟩ | ⟨q, rfl, _⟩
            · cases q with
              | nil => simp
              | cons u q => simp at hq
            · exact List.prefix_append _ _
          have steady := (all.level .square settled).2 a before
          have open_one : Bracket.square.shift l.terminal = 1 := by
            rw [hl]
            rfl
          rw [Bracket.level, open_one]
          omega

/-- No name in the formals is declared. -/
theorem Derives.declared_formals {w : List Token} {parts : List ParseTree}
    (h : Derives (.phrase .theoryFormals) w parts) {earlier : List Token}
    (outside : isOutside earlier = true) (rest : List Token) :
    declared earlier (w ++ rest) = declared (w.reverse ++ earlier) rest := by
  have no_formula : ∀ x ∈ w, x.terminal.announces? ≠ some .formula := by
    intro x hx
    have plain := h.mem_class Symbol.isPlain_closed rfl x hx
    simpa [Symbol.isPlain] using plain
  have parted : Parted w rest := by
    intro l hl u _
    have closing : l.terminal = .mark .rsquare := by
      have last := h.last_class
        (C := fun y => y = .phrase .theoryFormals ∨ y = .terminal (.mark .rsquare))
        (by intro n; cases n <;> decide) (by decide) l hl
      simpa using last
    rw [closing]
    rfl
  have in_brackets : ∀ a t b, w = a ++ t :: b → t.terminal = .ident →
      0 < Bracket.square.level a := by
    cases h with
    | phrase hb all =>
        rcases hb with _ | ⟨_, _ | ⟨_, hb⟩⟩
        · exact @DerivesAll.inside_brackets [.phrase .theoryFormal, .phrase .moreFormals] _ _ all rfl
        · exact @DerivesAll.inside_brackets [.phrase .theoryFormal] _ _ all rfl
        · cases hb
  refine declared_inside earlier no_formula parted ?_
  intro a t b split ht
  have deeper := in_brackets a t b split ht
  have level := isOutside_iff.mp outside .square
  refine Bool.eq_false_iff.mpr fun flat => ?_
  have zero := isOutside_iff.mp flat .square
  rw [Bracket.level_append, Bracket.level_reverse, level] at zero
  omega

theorem isOutside_name {t : Token} (ht : t.terminal = .ident) {earlier : List Token}
    (outside : isOutside earlier = true) : isOutside (t :: earlier) = true := by
  rw [isOutside_iff] at outside ⊢
  intro b
  have at_name : b.shift t.terminal = 0 := by
    rw [ht]
    cases b <;> rfl
  rw [Bracket.level, at_name, outside b]
  rfl

/-- No run goes from a name into the formals. -/
theorem Derives.parted_formals {w : List Token} {parts : List ParseTree}
    (h : Derives (.phrase .theoryFormals) w parts) {t : Token} (ht : t.terminal = .ident)
    (rest : List Token) : Parted [t] (w ++ rest) := by
  intro l hl u hu
  obtain rfl : t = l := Option.some.inj hl
  rw [List.head?_append_of_ne_nil _ h.ne_nil] at hu
  have opening : u.terminal = .mark .lsquare := by
    have first := h.head_class
      (C := fun y => y = .phrase .theoryFormals ∨ y = .terminal (.mark .lsquare))
      (by intro n; cases n <;> decide) (by decide) u hu
    simpa using first
  rw [ht, opening]
  rfl

section Frame

variable {t c h b : Token} {formals : List Token} {formalsParts : List ParseTree}

/-- Nothing is declared before the parts of a theory. -/
theorem declared_header (ht : t.terminal = .ident) (hc : c.terminal = .mark .colon)
    (hh : h.terminal = .keyword .THEORY) (hb : b.terminal = .keyword .BEGIN)
    (reading : Reads (.opt (.symbol (.phrase .theoryFormals))) formals formalsParts)
    {earlier : List Token} (outside : isOutside earlier = true) (rest : List Token) :
    declared earlier (t :: (formals ++ c :: h :: b :: rest)) =
      declared (b :: h :: c :: (formals.reverse ++ t :: earlier)) rest := by
  cases reading with
  | absent =>
      have quiet : ∀ x ∈ [t, c, h, b], x.terminal.announces? = none := by
        simp [ht, hc, hh, hb, Terminal.announces?, Keyword.formulas]
      have parted : Parted [t, c, h, b] rest := by
        intro l hl u _
        obtain rfl : b = l := Option.some.inj hl
        rw [hb]
        rfl
      exact declared_quiet earlier quiet parted
  | present reading =>
      have derived := reads_iff_derives.mp reading
      have quiet : ∀ x ∈ [t], x.terminal.announces? = none := by
        simp [ht, Terminal.announces?]
      have name := declared_quiet earlier quiet
        (derived.parted_formals ht (c :: h :: b :: rest))
      have inside := derived.declared_formals (isOutside_name ht outside) (c :: h :: b :: rest)
      rw [List.singleton_append] at name
      rw [name, List.reverse_singleton, List.singleton_append, inside,
        declared_cons_of_not_ident (by rw [hc]; nofun),
        declared_cons_of_not_ident (by rw [hh]; nofun),
        declared_cons_of_not_ident (by rw [hb]; nofun)]

/-- The first part of a theory may begin after its header. -/
theorem partStart_header (ht : t.terminal = .ident) (hc : c.terminal = .mark .colon)
    (hh : h.terminal = .keyword .THEORY) (hb : b.terminal = .keyword .BEGIN)
    (reading : Reads (.opt (.symbol (.phrase .theoryFormals))) formals formalsParts)
    {earlier : List Token} (outside : isOutside earlier = true) :
    PartStart (b :: h :: c :: (formals.reverse ++ t :: earlier)) where
  outside := by
    have formals_outside : isOutside (formals.reverse ++ t :: earlier) = true := by
      cases reading with
      | absent => exact isOutside_name ht outside
      | present reading =>
          exact (reads_iff_derives.mp reading).stays_outside (isOutside_name ht outside)
    rw [isOutside_iff] at formals_outside ⊢
    intro bracket
    simp only [Bracket.level, hc, hh, hb, formals_outside bracket]
    cases bracket <;> rfl
  no_comma := by
    intro u hu
    obtain rfl := Option.some.inj hu
    rw [hb]
    nofun

end Frame

/-- The names of a theory are those of its parts. -/
theorem Reads.agrees_theory {w : List Token} {parts : List ParseTree}
    (reading : Reads (.symbol (.phrase .theory)) w parts) :
    ∃ ds, Agrees (.symbol (.phrase .theory)) w parts ds := by
  have derived := reads_iff_derives.mp reading
  obtain ⟨children, rfl, row⟩ := reading.of_phrase
  obtain ⟨_, _, _, _, rfl, rfl, name, row₁⟩ := row.of_row.uncons
  obtain ⟨formals, _, formalsParts, _, rfl, rfl, formal, row₂⟩ := row₁.uncons
  obtain ⟨_, _, _, _, rfl, rfl, colon, row₃⟩ := row₂.uncons
  obtain ⟨_, _, _, _, rfl, rfl, theoryWord, row₄⟩ := row₃.uncons
  obtain ⟨_, _, _, _, rfl, rfl, beginWord, row₅⟩ := row₄.uncons
  obtain ⟨body, _, bodyParts, _, rfl, rfl, theoryParts, row₆⟩ := row₅.uncons
  obtain ⟨_, _, _, _, rfl, rfl, endWord, row₇⟩ := row₆.uncons
  obtain ⟨t, ht, rfl, rfl⟩ := name.of_identifier
  obtain ⟨c, hc, rfl, rfl⟩ := colon.of_terminal
  obtain ⟨h, hh, rfl, rfl⟩ := theoryWord.of_terminal
  obtain ⟨b, hb, rfl, rfl⟩ := beginWord.of_terminal
  obtain ⟨e, he, rfl, rfl⟩ := endWord.of_terminal
  obtain ⟨u, hu, rfl, rfl⟩ := row₇.single.of_identifier
  obtain ⟨ds, agrees⟩ := theoryParts.agrees_star Reads.agrees_part
  have formals_none : ∀ ts number, found ts number formalsParts = [] := by
    intro ts number
    cases formal with
    | absent => rfl
    | present formal => exact (reads_iff_derives.mp formal).found_plain ts number rfl
  refine ⟨ds, ?_, ?_, derived.partStart, fun _ => derived.partEnd rfl, ?_, agrees.written⟩
  · intro ts number located
    have body_located : ts.Locates number body := by
      refine located.mono ?_
      intro x hx
      simp [hx]
    have name := found_run ts number [t]
    have final := found_run ts number [u]
    rw [List.map_singleton] at name final
    rw [found_assemble ts number (n := .theory) nofun nofun]
    simp only [found_append, found_leaf, formals_none, name, final, agrees.walk body_located,
      List.nil_append, List.append_nil]
  · intro earlier rest start stop
    have header := declared_header ht hc hh hb formal start.outside (body ++ e :: u :: rest)
    have ending : PartEnd (e :: u :: rest) := by
      intro x hx
      obtain rfl : e = x := Option.some.inj hx
      rw [he]
      rfl
    have parts := agrees.scan (partStart_header ht hc hh hb formal start.outside) ending
    have quiet : ∀ x ∈ [e, u], x.terminal.announces? = .none := by
      simp [he, hu, Terminal.announces?, Keyword.formulas]
    have no_comma : ∀ x ∈ [e, u].getLast?, x.terminal ≠ .mark .comma := by
      intro x hx
      obtain rfl : u = x := Option.some.inj hx
      rw [hu]
      nofun
    have final := fun before => declared_quiet before quiet (stop.parted no_comma)
    simp only [List.cons_append, List.nil_append, List.append_assoc] at final ⊢
    rw [header, parts, final]
    simp
  · intro d hd
    have fits : ∀ v, Ebnf.Admits (.star (.symbol (.phrase .theoryPart))) v →
        Ebnf.Admits (.symbol (.phrase .theory))
          (([t] ++ (formals ++ ([c] ++ ([h] ++ [b])))) ++ v ++ ([e] ++ [u])) := by
      rintro v ⟨_, others⟩
      have swapped : Ebnf.Admits (.symbol (.phrase .theory)) _ :=
        ⟨_, .phrase (.row (.cons name (.cons formal (.cons colon (.cons theoryWord
          (.cons beginWord (.cons others (.cons endWord row₇))))))))⟩
      simpa using swapped
    have inside := (agrees.whole d hd).within _ _ fits
    simpa using inside

/-- The walk and the scan agree on every text. -/
theorem Derives.agrees_start {w : List Token} {trees : List ParseTree}
    (h : Derives (.phrase .start) w trees) :
    ∃ ds, Agrees (.symbol (.phrase .start)) w trees ds := by
  obtain ⟨inner, rfl, reading⟩ := (reads_iff_derives.mpr h).of_phrase
  cases reading with
  | plus many one =>
      obtain ⟨ds, before⟩ := many.agrees_star Reads.agrees_theory
      obtain ⟨es, here⟩ := one.agrees_theory
      have agrees := before.append (f := .symbol (.phrase .start)) here ⟨_, many⟩ ⟨_, one⟩ (by
        rintro x y ⟨_, hx⟩ ⟨_, hy⟩
        exact ⟨_, .phrase (.plus hx hy)⟩)
      refine ⟨ds ++ es, ?_, agrees.scan, agrees.start, agrees.stop, agrees.whole, agrees.written⟩
      intro ts number located
      rw [found_assemble ts number (n := .start) nofun nofun, agrees.walk located]

/-! ## The index -/

/-- The walk through a parsed text meets no fault, and it finds the names that
the scan finds. -/
theorem allFindings_parsed {source : List Char} {root : Node} {ts : TokenStream}
    (h : parse source = .tree root ts) :
    root.allFindings ts = ((declared [] ts.tokens).map (Declared.addition source)).map .ok ∧
      ∀ d ∈ declared [] ts.tokens, PartIn (.symbol (.phrase .start)) d.part ts.tokens := by
  obtain ⟨rfl, _, tree, derived, converted⟩ := parse_eq_tree_iff.mp h
  obtain ⟨ds, agrees⟩ := derived.agrees_start
  have tokens : tree.tokens = ts.tokens := derived.tree_tokens
  have nodes := Node.convertAll_of_ofParseTree? converted
  rw [tokens] at nodes
  have walk := agrees.walk ts.locates_lastPosition
  rw [found, nodes, List.flatMap_singleton] at walk
  rw [agrees.declared_eq]
  refine ⟨?_, agrees.whole⟩
  rw [Node.allFindings, walk, List.map_map]
  rfl

/-- The walk through a parsed text makes the index of the names that the scan
finds. -/
theorem walk_parsed {source : List Char} {root : Node} {ts : TokenStream}
    (h : parse source = .tree root ts) :
    Index.empty.walk root ts = (Index.ofDeclared source (declared [] ts.tokens), none) ∧
      ∀ d ∈ declared [] ts.tokens, PartIn (.symbol (.phrase .start)) d.part ts.tokens := by
  obtain ⟨found, whole⟩ := allFindings_parsed h
  refine ⟨?_, whole⟩
  rw [Index.walk, found, Index.absorb_ok, Index.ofDeclared_eq]

theorem Report.ofSource_parsed {source : List Char} {root : Node} {ts : TokenStream}
    (h : parse source = .tree root ts) (reportDuplicates : Bool) :
    ∃ duplicates, ofSource reportDuplicates source =
      .ok (.indexed (Index.ofDeclared source (declared [] ts.tokens)) duplicates) := by
  refine ⟨if reportDuplicates then
    (Index.ofDeclared source (declared [] ts.tokens)).duplicateWarnings else [], ?_⟩
  rw [ofSource, h, ofParsed, (walk_parsed h).1]

/-- The index of a text is the one that its tokens announce. -/
theorem index_of_tokens (reportDuplicates : Bool) (source : List Char)
    (clean : (parse source).diagnostics = []) :
    ∃ ts duplicates, tokenize source = .ok ts ∧
      Report.ofSource reportDuplicates source =
        .ok (.indexed (Index.ofDeclared source (declared [] ts)) duplicates) ∧
      ∀ d ∈ declared [] ts, PartIn (.symbol (.phrase .start)) d.part ts := by
  obtain ⟨root, ts, parsed⟩ := parse_diagnostics_eq_nil_iff.mp clean
  obtain ⟨_, tokens, _⟩ := parse_eq_tree_iff.mp parsed
  obtain ⟨duplicates, report⟩ := Report.ofSource_parsed parsed reportDuplicates
  exact ⟨ts.tokens, duplicates, tokens, report, (walk_parsed parsed).2⟩

theorem index_of_tokens_smallTheory :
    ∃ index duplicates, Report.ofSource true smallTheory = .ok (.indexed index duplicates) ∧
      index.types = [⟨['m'], 1, 16, "m, n: TYPE".toList⟩, ⟨['n'], 1, 19, "m, n: TYPE".toList⟩] ∧
      index.formulas = [⟨['c'], 1, 27, "c: AXIOM p".toList⟩] ∧ index.shadowed = [] := by
  obtain ⟨ts, duplicates, tokens, report, _⟩ :=
    index_of_tokens true smallTheory diagnostics_smallTheory
  obtain rfl : smallTheoryTokens = ts := by
    rw [tokenize_smallTheory] at tokens
    exact Except.ok.inj tokens
  exact ⟨_, duplicates, report, by rfl, by rfl, by rfl⟩

end PvsIndex
