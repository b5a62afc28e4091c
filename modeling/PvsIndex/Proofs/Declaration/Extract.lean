import PvsIndex.Proofs.Declaration.Completeness
import PvsIndex.Proofs.Declaration.Entries
import PvsIndex.Proofs.Token.Context

/-!
# Declarations cut out of a text

The text of a declaration can stand in a theory of its own and is then the same
declaration.  Three things come together:

  * the text is made up of whole pieces, from the first token of the declaration
    through the last (`Declared.text_eq_allText`);
  * these pieces are cut in the same way between the lines of a new theory
    (`frontsAll_framed`), where what stood behind them is gone and a line end has
    come instead;
  * the same words are the same declaration, and the scan finds its names there
    and nothing else (`TheoryFrame.declared_around`).
-/

namespace PvsIndex

/-! ## From token to token -/

/-- The pieces begin and end with a token. -/
structure Delimited (qs : List Piece) : Prop where
  first : ∃ t, qs.head? = some (.token t)
  last : ∃ t, qs.getLast? = some (.token t)

/-- What stands before the first token can be left out. -/
theorem exists_trimmed {qs : List Piece} {part : List Token}
    (tokens : qs.filterMap Piece.token? = part) (nonempty : part ≠ []) :
    ∃ pre mid, qs = pre ++ mid ∧ mid.filterMap Piece.token? = part ∧
      ∃ t, mid.head? = some (.token t) := by
  obtain ⟨f, others, rfl⟩ := List.exists_cons_of_ne_nil nonempty
  obtain ⟨pre, q, rest, rfl, _, first, behind⟩ := List.filterMap_eq_cons_iff.mp tokens
  refine ⟨pre, q :: rest, rfl, ?_, f, ?_⟩
  · rw [List.filterMap_cons_some first, behind]
  · rw [List.head?_cons, Piece.eq_token_of_token? first]

/-- Tokens that stand side by side come from pieces that do, from the first of
these tokens through the last. -/
theorem exists_delimited {qs : List Piece} {before part after : List Token}
    (tokens : qs.filterMap Piece.token? = before ++ part ++ after) (nonempty : part ≠ []) :
    ∃ pre mid post, qs = pre ++ mid ++ post ∧ mid.filterMap Piece.token? = part ∧
      Delimited mid := by
  obtain ⟨front, post₁, rfl, tokens₁, _⟩ := List.filterMap_eq_append_iff.mp tokens
  obtain ⟨pre₁, row, rfl, _, tokens₂⟩ := List.filterMap_eq_append_iff.mp tokens₁
  obtain ⟨pre₂, mid₁, rfl, tokens₃, t, head⟩ := exists_trimmed tokens₂ nonempty
  -- the same from the other end
  have reversed : mid₁.reverse.filterMap Piece.token? = part.reverse := by
    rw [List.filterMap_reverse, tokens₃]
  obtain ⟨post₂, mid₂, split, tokens₄, l, last⟩ :=
    exists_trimmed reversed (by simpa using nonempty)
  obtain rfl : mid₁ = mid₂.reverse ++ post₂.reverse := by
    rw [← List.reverse_append, ← split, List.reverse_reverse]
  refine ⟨pre₁ ++ pre₂, mid₂.reverse, post₂.reverse ++ post₁, by simp, ?_, ⟨t, ?_⟩, l, ?_⟩
  · rw [List.filterMap_reverse, tokens₄, List.reverse_reverse]
  · have some_left : mid₂.reverse ≠ [] := by
      rintro none
      rw [List.reverse_eq_nil_iff.mp none] at last
      cases last
    rwa [List.head?_append_of_ne_nil _ some_left] at head
  · rw [List.getLast?_reverse, last]

theorem Delimited.settle {qs : List Piece} (h : Delimited qs) (p : Place) :
    Delimited (Piece.settle p qs) where
  first := by
    obtain ⟨t, head⟩ := h.first
    obtain ⟨rest, rfl⟩ := List.head?_eq_some_iff.mp head
    exact ⟨_, rfl⟩
  last := by
    obtain ⟨t, last⟩ := h.last
    obtain ⟨front, rfl⟩ := List.getLast?_eq_some_iff.mp last
    rw [Piece.settle_append, List.getLast?_append]
    exact ⟨_, rfl⟩

/-- The text from one token through another is made up of the pieces between them. -/
theorem Cut.slice_eq_allText {pre mid post : List Piece} (cut : Cut .start (pre ++ mid ++ post) [])
    {first last : Token} (head : mid.head? = some (.token first))
    (tail : mid.getLast? = some (.token last)) (ts : List Token) :
    TokenStream.slice ⟨Piece.allText (pre ++ mid ++ post), ts⟩ ⟨first.start, last.stop⟩ =
      Piece.allText mid := by
  have start : first.start.offset = (Piece.allText pre).length := by
    obtain ⟨rest, rfl⟩ := List.head?_eq_some_iff.mp head
    have here := (cut_append.mp (cut_append.mp cut).1).2.1
    rw [show first.start = _ from here, Place.offset_afterAll]
    exact Nat.zero_add _
  have stop : last.stop.offset = (Piece.allText pre).length + (Piece.allText mid).length := by
    obtain ⟨front, rfl⟩ := List.getLast?_eq_some_iff.mp tail
    have here := (cut_append.mp (cut_append.mp (cut_append.mp cut).1).2).2.1
    rw [Token.stop, show last.start = _ from here, Place.offset_afterAll, Place.offset_afterAll,
      Place.offset_afterAll]
    simp [Place.start, Piece.text, Nat.add_assoc]
  simp only [TokenStream.slice, start, stop, Nat.add_sub_cancel_left, Piece.allText_append,
    List.append_assoc, List.drop_left, List.take_left]

theorem head?_filterMap_token? {qs : List Piece} {t : Token} (h : qs.head? = some (.token t)) :
    (qs.filterMap Piece.token?).head? = some t := by
  obtain ⟨rest, rfl⟩ := List.head?_eq_some_iff.mp h
  rw [List.filterMap_cons]
  rfl

theorem getLast?_filterMap_token? {qs : List Piece} {t : Token}
    (h : qs.getLast? = some (.token t)) : (qs.filterMap Piece.token?).getLast? = some t := by
  obtain ⟨front, rfl⟩ := List.getLast?_eq_some_iff.mp h
  rw [List.filterMap_append, List.getLast?_append]
  rfl

/-- The text of a declaration is made up of pieces. -/
theorem Declared.text_eq_allText {d : Declared} {pre mid post : List Piece}
    (cut : Cut .start (pre ++ mid ++ post) []) (limits : Delimited mid)
    (part : mid.filterMap Piece.token? = d.part) :
    d.text (Piece.allText (pre ++ mid ++ post)) = Piece.allText mid := by
  obtain ⟨first, head⟩ := limits.first
  obtain ⟨last, tail⟩ := limits.last
  rw [Declared.text, ← part, head?_filterMap_token? head, getLast?_filterMap_token? tail]
  exact cut.slice_eq_allText head tail []

/-! ## The words of a theory -/

/-- The words of a theory without formals, around its parts. -/
structure TheoryFrame where
  name : Token
  colon : Token
  theoryWord : Token
  beginWord : Token
  endWord : Token
  closingName : Token
  name_ident : name.terminal = .ident
  colon_mark : colon.terminal = .mark .colon
  theory_word : theoryWord.terminal = .keyword .THEORY
  begin_word : beginWord.terminal = .keyword .BEGIN
  end_word : endWord.terminal = .keyword .END
  closing_ident : closingName.terminal = .ident

theorem Reads.word {t : Token} {k : Terminal} (h : t.terminal = k) :
    Reads (.symbol (.terminal k)) [t] [.leaf t] :=
  h ▸ .token t

namespace TheoryFrame

/-- The theory with these parts. -/
def around (f : TheoryFrame) (body : List Token) : List Token :=
  [f.name, f.colon, f.theoryWord, f.beginWord] ++ body ++ [f.endWord, f.closingName]

theorem exists_of_terminals {header closing : List Token}
    (hh : header.map Token.terminal = [.ident, .mark .colon, .keyword .THEORY, .keyword .BEGIN])
    (hc : closing.map Token.terminal = [.keyword .END, .ident]) :
    ∃ f : TheoryFrame, ∀ body, header ++ body ++ closing = f.around body := by
  obtain ⟨t, _, rfl, ht, hh⟩ := List.map_eq_cons_iff.mp hh
  obtain ⟨c, _, rfl, hcolon, hh⟩ := List.map_eq_cons_iff.mp hh
  obtain ⟨h, _, rfl, htheory, hh⟩ := List.map_eq_cons_iff.mp hh
  obtain ⟨b, rfl, hbegin⟩ := List.map_eq_singleton_iff.mp hh
  obtain ⟨e, _, rfl, hend, hc⟩ := List.map_eq_cons_iff.mp hc
  obtain ⟨u, rfl, hu⟩ := List.map_eq_singleton_iff.mp hc
  exact ⟨⟨t, c, h, b, e, u, ht, hcolon, htheory, hbegin, hend, hu⟩, fun _ => rfl⟩

/-- A theory with one part is a text. -/
theorem reads_around (f : TheoryFrame) {part : List Token} (h : IsPart part) :
    ∃ trees, Reads (.symbol (.phrase .start)) (f.around part) trees := by
  obtain ⟨trees, reading⟩ := h
  have closing := ReadsRow.cons (.word f.end_word) (.cons (.name f.closingName f.closing_ident) .nil)
  have body := ReadsRow.cons (.more .none reading) closing
  have opening := ReadsRow.cons (.word f.colon_mark)
    (.cons (.word f.theory_word) (.cons (.word f.begin_word) body))
  have row := ReadsRow.cons (.name f.name f.name_ident)
    (.cons (.absent (e := .symbol (.phrase .theoryFormals))) opening)
  have theory : Reads (.symbol (.phrase .theory)) (f.around part) _ := .phrase (.row row)
  have text := Reads.phrase (n := .start) (.plus .none theory)
  exact ⟨_, text⟩

/-- In a theory with one declaration the scan finds what it declares. -/
theorem declared_around (f : TheoryFrame) {kind : DeclarationKind} {part : List Token}
    {parts : List ParseTree} (h : Derives (.phrase kind.phrase) part parts) :
    declared [] (f.around part) = declarations kind part := by
  have outside : isOutside [] = true := rfl
  have header := declared_header f.name_ident f.colon_mark f.theory_word f.begin_word .absent
    outside (part ++ [f.endWord, f.closingName])
  have start : PartStart _ :=
    partStart_header f.name_ident f.colon_mark f.theory_word f.begin_word .absent outside
  have stop : PartEnd [f.endWord, f.closingName] := by
    rintro t ⟨⟩
    rw [f.end_word]
    rfl
  have quiet : ∀ x ∈ [f.endWord, f.closingName], x.terminal.announces? = none := by
    simp [f.end_word, f.closing_ident, Terminal.announces?, Keyword.formulas]
  have parted : Parted [f.endWord, f.closingName] [] := by
    rintro _ _ _ ⟨⟩
  have closing : ∀ earlier, declared earlier [f.endWord, f.closingName] = [] :=
    fun earlier => declared_quiet earlier quiet parted
  rw [h.agrees_declaration.scan start stop, closing, List.append_nil] at header
  exact header

end TheoryFrame

/-! ## A theory around a declaration -/

/-- A theory with one declaration. -/
def again (declaration : List Char) : List Char :=
  "again: THEORY\nBEGIN\n".toList ++ declaration ++ "\nEND again\n".toList

/-- A line end. -/
def lineEnd : Piece :=
  .blank .start ['\n']

/-- What stands before the declaration. -/
def openingPieces : List Piece :=
  scan "again: THEORY\nBEGIN".toList ++ [lineEnd]

/-- What stands behind it. -/
def closingPieces : List Piece :=
  lineEnd :: scan "END again\n".toList

/-- Pieces in a theory of their own. -/
def framed (mid : List Piece) : List Piece :=
  openingPieces ++ mid ++ closingPieces

theorem allText_openingPieces : Piece.allText openingPieces = "again: THEORY\nBEGIN\n".toList := by
  decide +kernel

theorem allText_closingPieces : Piece.allText closingPieces = "\nEND again\n".toList := by
  decide +kernel

theorem allText_framed (mid : List Piece) :
    Piece.allText (framed mid) = again (Piece.allText mid) := by
  unfold framed again
  rw [Piece.allText_append, Piece.allText_append, allText_openingPieces, allText_closingPieces]

/-- Pieces from token to token that were cut out of a readable text are cut in
the same way between the lines of a theory. -/
theorem frontsAll_framed {mid : List Piece} {rest : List Char} (fronts : FrontsAll mid rest)
    (readable : ∀ q ∈ mid, q.isReadable = true) (limits : Delimited mid) :
    FrontsAll (framed mid) [] := by
  have solid : ∀ t, .token t ∈ mid → ∃ c cs, t.text = c :: cs ∧ isBlank c = false := by
    intro t ht
    obtain ⟨_, front⟩ := fronts.exists_fronts _ ht
    exact front.solid
  obtain ⟨first, head⟩ := limits.first
  obtain ⟨last, tail⟩ := limits.last
  have closing : FrontsAll closingPieces [] := by
    refine ⟨fronts_blank (by simp) (by decide) ?_ _, (cut_scan _).frontsAll⟩
    rw [List.append_nil, Piece.allText, scan_text]
    decide
  have inside : FrontsAll mid "\nEND again\n".toList := by
    have alone : FrontsAll mid [] := @FrontsAll.truncate [] _ _ fronts readable
    refine alone.newline "END again\n".toList ?_
    intro q hq
    obtain rfl : q = .token last := Option.some.inj (hq.symm.trans tail)
    obtain ⟨c, cs, text, nonblank⟩ := solid last (List.mem_of_getLast? tail)
    simp [Piece.text, text, nonblank]
  have opening : FrontsAll openingPieces (Piece.allText mid ++ "\nEND again\n".toList) := by
    refine frontsAll_append.mpr ⟨?_, fronts_blank (by simp) (by decide) ?_ _, trivial⟩
    · exact (cut_scan _).frontsAll.newline _ (by decide +kernel)
    · obtain ⟨rest, rfl⟩ := List.head?_eq_some_iff.mp head
      obtain ⟨c, cs, text, nonblank⟩ := solid first List.mem_cons_self
      simpa [Piece.text, text] using nonblank
  rw [framed, frontsAll_append, frontsAll_append, allText_closingPieces, List.append_nil]
  exact ⟨⟨opening, inside⟩, closing⟩

theorem isReadable_framed {mid : List Piece} (h : ∀ q ∈ mid, q.isReadable = true) :
    ∀ q ∈ framed mid, q.isReadable = true := by
  have opening : ∀ q ∈ openingPieces, q.isReadable = true := by decide +kernel
  have closing : ∀ q ∈ closingPieces, q.isReadable = true := by decide +kernel
  intro q hq
  simp only [framed, List.mem_append] at hq
  rcases hq with (hq | hq) | hq
  · exact opening q hq
  · exact h q hq
  · exact closing q hq

/-- Where a declaration stands in a theory of its own: at the beginning of the
third line. -/
def framePlace : Place := ⟨20, 3, 1⟩

/-- A declaration with the words of `part`, in a theory of its own. -/
structure Reframed (declaration : List Char) (part : List Token) (frame : TheoryFrame)
    (part' : List Token) : Prop where
  tokens : tokenize (again declaration) = .ok (frame.around part')
  words : part'.map Token.word = part.map Token.word
  place : ∀ t ∈ part'.head?, t.start = framePlace
  text : ∀ d : Declared, d.part = part' → d.text (again declaration) = declaration

/-- The text of a declaration has its words again in a theory of its own. -/
theorem Declared.exists_reframed {source : List Char} {d : Declared} {before after : List Token}
    (tokens : tokenize source = .ok (before ++ d.part ++ after)) (nonempty : d.part ≠ []) :
    ∃ frame part', Reframed (d.text source) d.part frame part' := by
  obtain ⟨readable, found⟩ := readableTokens_eq_ok_iff.mp tokens
  obtain ⟨pre, mid, post, split, part, limits⟩ := exists_delimited found nonempty
  have cut := cut_scan source
  rw [split] at cut readable
  have text : d.text source = Piece.allText mid := by
    have source_eq : source = Piece.allText (pre ++ mid ++ post) := by
      rw [← split, Piece.allText, scan_text]
    rw [source_eq]
    exact text_eq_allText cut limits part
  have readable_mid : ∀ q ∈ mid, q.isReadable = true := by
    intro q hq
    exact readable q (by simp [hq])
  have fronts := frontsAll_framed (frontsAll_append.mp (frontsAll_append.mp cut.frontsAll).1).2
    readable_mid limits
  have tokens_again := fronts.tokenize_eq (isReadable_framed readable_mid)
  have cut_again := fronts.cut .start
  have place : Place.start.afterAll (Piece.allText openingPieces) = framePlace := by
    decide +kernel
  rw [allText_framed] at tokens_again
  rw [framed, Piece.settle_append, Piece.settle_append, place] at tokens_again cut_again
  rw [List.filterMap_append, List.filterMap_append] at tokens_again
  have opening_words : ((Piece.settle .start openingPieces).filterMap Piece.token?).map
      Token.terminal = [.ident, .mark .colon, .keyword .THEORY, .keyword .BEGIN] := by
    decide +kernel
  have closing_words := Token.terminals_of_words (Piece.words_settle
    (Place.start.afterAll (Piece.allText (openingPieces ++ mid))) closingPieces)
  obtain ⟨frame, around⟩ := TheoryFrame.exists_of_terminals opening_words
    (closing_words.trans (by decide +kernel))
  rw [around] at tokens_again
  rw [text]
  refine ⟨frame, _, tokens_again, ?_, ?_, ?_⟩
  · rw [Piece.words_settle, part]
  · obtain ⟨first, head⟩ := limits.first
    obtain ⟨rest, rfl⟩ := List.head?_eq_some_iff.mp head
    rintro t ⟨⟩
    rfl
  · intro d' part'
    have text' := text_eq_allText cut_again (limits.settle _) part'.symm
    rw [← allText_framed, framed]
    simpa only [Piece.allText_append, Piece.allText_settle] using text'

/-! ## The declaration in its own theory -/

/-- The texts of the declared names depend on the words only. -/
theorem declaredNames_texts_of_words {part part' : List Token}
    (h : part'.map Token.word = part.map Token.word) :
    (declaredNames part').map Token.text = (declaredNames part).map Token.text := by
  have by_words : ∀ w : List Token, (declaredNames w).map Token.text =
      (((w.map Token.word).takeWhile fun x => x.1 ≠ .mark .colon).filter fun x =>
        x.1 = .ident).map Prod.snd := by
    intro w
    rw [List.takeWhile_map, List.filter_map, List.map_map]
    rfl
  rw [by_words, by_words, h]

/-- A declaration begins with a name, the first that it declares. -/
theorem Derives.declaredNames_eq_cons {kind : DeclarationKind} {part : List Token}
    {parts : List ParseTree} (h : Derives (.phrase kind.phrase) part parts) :
    ∃ t others, part.head? = some t ∧ declaredNames part = t :: others := by
  have first := h.head_class
    (C := fun y => y = .phrase kind.phrase ∨ y = .phrase .identifier ∨ y = .terminal .ident)
    (by cases kind <;> (intro n; cases n <;> decide)) (by simp)
  obtain ⟨t, rest, rfl⟩ := List.exists_cons_of_ne_nil h.ne_nil
  have name : t.terminal = .ident := by simpa using first t rfl
  refine ⟨t, names (rest.takeWhile fun t => t.terminal ≠ .mark .colon), rfl, ?_⟩
  rw [declaredNames, List.takeWhile_cons_of_pos (by simp [name]), names,
    List.filter_cons_of_pos (by simp [name])]
  rfl

theorem textsOf_declarations (kind other : DeclarationKind) (part : List Token) :
    Index.textsOf other (declarations kind part) =
      if kind = other then (declaredNames part).map Token.text else [] := by
  by_cases same : kind = other
  · simp [Index.textsOf, declarations, same, List.filter_map, Function.comp_def]
  · simp [Index.textsOf, declarations, same, List.filter_map, Function.comp_def]

/-- Every declared name of a parsed text comes from a declaration of its kind. -/
theorem declared_written {source : List Char} {root : Node} {ts : TokenStream}
    (h : parse source = .tree root ts) : ∀ d ∈ declared [] ts.tokens, d.Written := by
  obtain ⟨_, _, tree, derived, _⟩ := parse_eq_tree_iff.mp h
  obtain ⟨ds, agrees⟩ := derived.agrees_start
  rw [agrees.declared_eq]
  exact agrees.written

/-- An index is the one of a parsed text. -/
theorem Report.parsed_of_indexed {reportDuplicates : Bool} {source : List Char} {index : Index}
    {duplicates : List Diagnostic}
    (h : ofSource reportDuplicates source = .ok (.indexed index duplicates)) :
    ∃ root ts, parse source = .tree root ts ∧
      index = Index.ofDeclared source (declared [] ts.tokens) := by
  cases outcome : parse source with
  | rejected diagnostics =>
      rw [ofSource, outcome, ofParsed] at h
      cases h
  | tree root ts =>
      obtain ⟨_, same⟩ := ofSource_parsed outcome reportDuplicates
      rw [same] at h
      cases h
      exact ⟨root, ts, rfl, rfl⟩

/-- The index of a theory with a single declaration: its names and nothing else,
each with the text of the declaration, and the first name where the declaration
begins. -/
structure Index.HasOnly (index : Index) (kind : DeclarationKind) (texts : List (List Char))
    (declaration : List Char) : Prop where
  keys : (index.table kind).identifiers = texts.eraseDups
  others : ∀ other, other ≠ kind → index.table other = []
  entries : ∀ other e, index.Lists other e → other = kind ∧ e.declaration = declaration
  first : ∃ e, index.Lists kind e ∧ texts.head? = some e.identifier ∧ e.line = 3 ∧ e.character = 0

theorem Reframed.hasOnly {declaration : List Char} {part part' : List Token} {frame : TheoryFrame}
    (h : Reframed declaration part frame part') {kind : DeclarationKind} {parts : List ParseTree}
    (derived : Derives (.phrase kind.phrase) part' parts) :
    (Index.ofDeclared (again declaration) (declared [] (frame.around part'))).HasOnly kind
      ((declaredNames part).map Token.text) declaration := by
  rw [frame.declared_around derived]
  have entries : ∀ other e,
      (Index.ofDeclared (again declaration) (declarations kind part')).Lists other e →
        other = kind ∧ e.declaration = declaration := by
    intro other e listed
    obtain ⟨d, hd, rfl, rfl⟩ := Index.lists_ofDeclared.mp listed
    obtain ⟨n, _, rfl⟩ := List.mem_map.mp hd
    exact ⟨rfl, h.text _ rfl⟩
  refine ⟨?_, ?_, entries, ?_⟩
  · rw [Index.identifiers_ofDeclared, textsOf_declarations, if_pos rfl,
      declaredNames_texts_of_words h.words]
  · intro other apart
    refine List.eq_nil_iff_forall_not_mem.mpr fun e he => ?_
    exact apart (entries other e (Or.inl he)).1
  · obtain ⟨t, rest, head, names⟩ := derived.declaredNames_eq_cons
    have place := h.place t head
    refine ⟨Declared.descriptor (again declaration) ⟨kind, t, part'⟩, ?_, ?_, ?_, ?_⟩
    · refine Index.lists_ofDeclared.mpr ⟨_, ?_, rfl, rfl⟩
      exact List.mem_map.mpr ⟨t, by rw [names]; exact List.mem_cons_self, rfl⟩
    · rw [← declaredNames_texts_of_words h.words, names]
      rfl
    · simp [Declared.descriptor, place, framePlace]
    · simp [Declared.descriptor, place, framePlace]

/-- A declaration that was cut out of a text is the same declaration in a theory
of its own. -/
theorem declaration_reparses (reportDuplicates : Bool) (source : List Char) (index : Index)
    (duplicates : List Diagnostic) (kind : DeclarationKind) (d : Descriptor)
    (report : Report.ofSource reportDuplicates source = .ok (.indexed index duplicates))
    (listed : index.Lists kind d) :
    (parse (again d.declaration)).diagnostics = [] ∧
      ∃ ts x index' duplicates', tokenize source = .ok ts ∧ x ∈ declared [] ts ∧
        PartIn (.symbol (.phrase .start)) x.part ts ∧ x.kind = kind ∧ x.descriptor source = d ∧
        Report.ofSource reportDuplicates (again d.declaration) = .ok (.indexed index' duplicates') ∧
        index'.HasOnly kind ((declaredNames x.part).map Token.text) d.declaration ∧
        d.identifier ∈ (index'.table kind).identifiers := by
  obtain ⟨root, ts, parsed, rfl⟩ := Report.parsed_of_indexed report
  obtain ⟨x, hx, rfl, rfl⟩ := Index.lists_ofDeclared.mp listed
  obtain ⟨_, tokens, _⟩ := parse_eq_tree_iff.mp parsed
  have whole := (walk_parsed parsed).2 x hx
  have ⟨_, before, after, split, _⟩ := whole
  obtain ⟨⟨parts, derived⟩, name⟩ := declared_written parsed x hx
  obtain ⟨frame, part', reframed⟩ := x.exists_reframed (split ▸ tokens) derived.ne_nil
  obtain ⟨parts', derived'⟩ := derived.of_terminals (Token.terminals_of_words reframed.words)
  obtain ⟨_, reading⟩ := frame.reads_around (derived'.isPart (by cases x.kind <;> decide))
  obtain ⟨_, root', _, _, parsed'⟩ := parse_eq_tree_of_reads reframed.tokens reading
  obtain ⟨duplicates', report'⟩ := Report.ofSource_parsed parsed' reportDuplicates
  have only := reframed.hasOnly derived'
  refine ⟨?_, ts.tokens, x, _, duplicates', tokens, hx, whole, rfl, rfl, report', only, ?_⟩
  · rw [Declared.descriptor, parsed', Parsed.diagnostics]
  · rw [only.keys, List.mem_eraseDups]
    exact List.mem_map_of_mem name

theorem declaration_reparses_smallTheory :
    (parse "again: THEORY\nBEGIN\nm, n: TYPE\nEND again\n".toList).diagnostics = [] := by
  obtain ⟨trees, reading⟩ := smallTheory_reads
  obtain ⟨_, root, _, _, parsed⟩ := parse_eq_tree_of_reads tokenize_smallTheory reading
  obtain ⟨duplicates, report⟩ := Report.ofSource_parsed parsed true
  have listed : (Index.ofDeclared smallTheory (declared [] smallTheoryTokens)).Lists .type
      ⟨['m'], 1, 16, "m, n: TYPE".toList⟩ :=
    Or.inl (by decide +kernel)
  have again_eq : again "m, n: TYPE".toList =
      "again: THEORY\nBEGIN\nm, n: TYPE\nEND again\n".toList := by
    decide +kernel
  rw [← again_eq]
  exact (declaration_reparses true smallTheory _ duplicates .type _ report listed).1

end PvsIndex
