import PvsIndex.Proofs.Declaration.Extract
import PvsIndex.Proofs.Text.Lines
import PvsIndex.Proofs.Token.Language

/-!
# Where names are declared

A descriptor says on which line its name stands and at which character of the
line, and it has the text of the declaration.  All of this is about the text
alone, with no token in sight: cut at its line feeds, the text has the name
there, the declaration stands in the text around the name, and it is not a
character longer at either end than its words.

The pieces of the text carry the proof.  A declaration is a stretch of pieces
from token to token, and its name is one of these (`Declared.exists_stretch`).  That
the name stops where it should is the greed of its shape: a name character behind
it would be part of it (`Fronts.name_stops`).
-/

namespace PvsIndex

/-! ## White space -/

/-- White space, in whatever script. -/
def whitespace : List Char :=
  ['\t', '\n', '\x0b', '\x0c', '\r', '\x1c', '\x1d', '\x1e', '\x1f', ' ', '\u0085', '\u00a0',
    '\u1680', '\u2000', '\u2001', '\u2002', '\u2003', '\u2004', '\u2005', '\u2006', '\u2007',
    '\u2008', '\u2009', '\u200a', '\u2028', '\u2029', '\u202f', '\u205f', '\u3000']

/-- Name characters are not white space, in upper case or not. -/
theorem not_mem_whitespace {c : Char} (h : isNameChar c = true ∨ isNameChar (fold c) = true) :
    c ∉ whitespace := by
  have apart : whitespace.all (fun c => !(isNameChar c || isNameChar (fold c))) = true := by
    decide
  intro white
  have other := List.all_eq_true.mp apart c white
  rw [Bool.not_eq_true', Bool.or_eq_false_iff] at other
  rcases h with h | h
  · exact absurd h (Bool.eq_false_iff.mp other.1)
  · exact absurd h (Bool.eq_false_iff.mp other.2)

theorem not_mem_whitespace_of_isNameChar {c : Char} (h : isNameChar c = true) : c ∉ whitespace :=
  not_mem_whitespace (Or.inl h)

/-- Keywords are spelled with name characters. -/
theorem Keyword.isNameChar_of_mem (k : Keyword) :
    ∀ c ∈ k.spelling.toList, isNameChar c = true := by
  have every : all.all (fun k => k.spelling.toList.all isNameChar) = true := by decide +kernel
  have named := List.all_eq_true.mp every k (List.mem_of_getElem? k.all_index)
  exact List.all_eq_true.mp named

theorem Mark.not_mem_whitespace_of_mem (m : Mark) :
    ∀ c ∈ m.spelling.toList, c ∉ whitespace := by
  have every : all.all (fun m => m.spelling.toList.all fun c => !whitespace.contains c) = true := by
    decide +kernel
  intro c hc
  have apart := List.all_eq_true.mp every m (List.mem_of_getElem? m.all_index)
  simpa using List.all_eq_true.mp apart c hc

/-- No white space is at either end of the text. -/
structure Trimmed (text : List Char) : Prop where
  first : ∀ c ∈ text.head?, c ∉ whitespace
  last : ∀ c ∈ text.getLast?, c ∉ whitespace

theorem Trimmed.of_forall {text : List Char} (h : ∀ c ∈ text, c ∉ whitespace) : Trimmed text where
  first := fun c hc => h c (List.mem_of_head? hc)
  last := fun c hc => h c (List.mem_of_getLast? hc)

/-- A word has no white space at its ends. -/
theorem Shape.Matches.trimmed {s : Shape} {text : List Char} (h : s.Matches text)
    (word : s ≠ .blank ∧ s ≠ .comment) : Trimmed text := by
  cases h with
  | name letter inside =>
      refine .of_forall (List.forall_mem_cons.mpr ⟨?_, ?_⟩)
      · exact not_mem_whitespace_of_isNameChar (isNameChar_of_isLetter letter)
      · exact fun d hd => not_mem_whitespace_of_isNameChar (inside d hd)
  | whole _ figures =>
      refine .of_forall ?_
      exact fun d hd => not_mem_whitespace_of_isNameChar (isNameChar_of_isFigure (figures d hd))
  | fraction _ figures _ digits =>
      refine .of_forall (List.forall_mem_append.mpr ⟨?_, List.forall_mem_cons.mpr ⟨?_, ?_⟩⟩)
      · exact fun d hd => not_mem_whitespace_of_isNameChar (isNameChar_of_isFigure (figures d hd))
      · decide
      · exact fun d hd => not_mem_whitespace_of_isNameChar (isNameChar_of_isFigure (digits d hd))
  | blank _ _ => exact absurd rfl word.1
  | @string inner _ _ =>
      have quote : '"' ∉ whitespace := by decide
      refine ⟨?_, ?_⟩
      · rintro c ⟨⟩
        exact quote
      · intro c hc
        rw [← List.cons_append, List.getLast?_concat] at hc
        exact Option.some.inj hc ▸ quote
  | comment _ => exact absurd rfl word.2
  | @keyword k cs spelled =>
      refine .of_forall fun c hc => not_mem_whitespace (Or.inr (k.isNameChar_of_mem _ ?_))
      rw [← spelled]
      exact List.mem_map_of_mem hc
  | mark m => exact .of_forall m.not_mem_whitespace_of_mem

theorem Shape.Matches.isNameChar_of_mem {text : List Char} (h : Shape.name.Matches text) :
    ∀ c ∈ text, isNameChar c = true := by
  cases h with
  | name letter inside =>
      exact List.forall_mem_cons.mpr ⟨isNameChar_of_isLetter letter, inside⟩

/-! ## Tokens in a text -/

/-- A token is of some shape, which is neither blanks nor a comment, and nothing
longer there is. -/
theorem Fronts.exists_matches {t : Token} {rest : List Char} (h : Fronts (.token t) rest) :
    ∃ s : Shape, s.piece t.start t.text = .token t ∧ s.Matches t.text ∧
      s.munch (t.text ++ rest) = t.text.length := by
  obtain ⟨s, piece, found, taken⟩ := h.of_token
  refine ⟨s, piece, ?_, taken⟩
  have fits := Shape.matches_take (Shape.munch_ne_zero found)
  rwa [taken, List.take_left] at fits

theorem Fronts.trimmed {t : Token} {rest : List Char} (h : Fronts (.token t) rest) :
    Trimmed t.text := by
  obtain ⟨s, piece, fits, _⟩ := h.exists_matches
  refine fits.trimmed ⟨?_, ?_⟩
  · rintro rfl
    cases piece
  · rintro rfl
    cases piece

theorem Shape.eq_name_of_ident {s : Shape} {p : Place} {text : List Char}
    (h : s.piece p text = .token ⟨p, .ident, text⟩) : s = .name := by
  cases s with
  | name => rfl
  | _ => cases h

/-- A name is written like one, and no name character stands behind it. -/
theorem Fronts.name_stops {t : Token} {rest : List Char} (h : Fronts (.token t) rest)
    (ident : t.terminal = .ident) :
    Shape.name.Matches t.text ∧ ∀ c ∈ rest.head?, isNameChar c = false := by
  obtain ⟨s, piece, fits, taken⟩ := h.exists_matches
  obtain rfl : s = .name := by
    refine Shape.eq_name_of_ident (piece.trans ?_)
    rw [← ident]
  refine ⟨fits, fun c hc => Bool.eq_false_iff.mpr fun more => ?_⟩
  obtain ⟨behind, rfl⟩ := List.head?_eq_some_iff.mp hc
  -- the name with this character would be a longer name
  have longer : Shape.name.Matches (t.text ++ [c]) := by
    generalize t.text = text at fits
    cases fits with
    | name letter inside =>
        exact .name letter (List.forall_mem_append.mpr ⟨inside, List.forall_mem_singleton.mpr more⟩)
  have within := longer.length_le behind
  rw [List.append_assoc, List.singleton_append, taken, List.length_append] at within
  exact absurd within (Nat.not_succ_le_self _)

/-! ## The stretch of a declaration -/

/-- What goes from token to token has no white space at its ends. -/
theorem Delimited.trimmed {mid : List Piece} {rest : List Char} (limits : Delimited mid)
    (fronts : FrontsAll mid rest) : Trimmed (Piece.allText mid) := by
  obtain ⟨f, head⟩ := limits.first
  obtain ⟨l, tail⟩ := limits.last
  obtain ⟨_, front⟩ := fronts.exists_fronts _ (List.mem_of_head? head)
  obtain ⟨_, back⟩ := fronts.exists_fronts _ (List.mem_of_getLast? tail)
  refine ⟨?_, ?_⟩
  · obtain ⟨others, rfl⟩ := List.head?_eq_some_iff.mp head
    rw [Piece.allText_cons, List.head?_append_of_ne_nil _ front.text_ne_nil]
    exact front.trimmed.first
  · obtain ⟨others, rfl⟩ := List.getLast?_eq_some_iff.mp tail
    rw [Piece.allText_append, Piece.allText_cons, Piece.allText_nil, List.append_nil,
      List.getLast?_append_of_ne_nil _ back.text_ne_nil]
    exact back.trimmed.last

/-- A declared name stands in the text of its declaration, and that in the text
of the theory: `pre` and `post` are around the declaration, `front` and `back`
around the name in it. -/
structure Declared.Stretch (d : Declared) (source pre front back post : List Char) : Prop where
  source_eq : source = pre ++ front ++ (d.name.text ++ back ++ post)
  text_eq : d.text source = front ++ (d.name.text ++ back)
  start : d.name.start = Place.start.afterAll (pre ++ front)
  fronts : Fronts (.token d.name) (back ++ post)
  trimmed : Trimmed (d.text source)
  first : d.part.head? = some d.name → front = []

theorem Declared.exists_stretch {source : List Char} {d : Declared} {before after : List Token}
    (tokens : tokenize source = .ok (before ++ d.part ++ after)) (name : d.name ∈ d.part) :
    ∃ pre front back post, d.Stretch source pre front back post := by
  obtain ⟨readable, found⟩ := readableTokens_eq_ok_iff.mp tokens
  obtain ⟨pre, mid, post, split, part, limits⟩ :=
    exists_delimited found (List.ne_nil_of_mem name)
  have cut := cut_scan source
  have whole := scan_text source
  rw [split] at cut whole
  obtain ⟨_, inside⟩ := cut_append.mp (cut_append.mp cut).1
  have text : d.text source = Piece.allText mid := by
    rw [← whole]
    exact text_eq_allText cut limits part
  have trimmed := limits.trimmed inside.frontsAll
  have opening : d.part.head? = some d.name →
      d.name.start = Place.start.afterAll (Piece.allText pre) := by
    intro first
    obtain ⟨f, head⟩ := limits.first
    obtain ⟨others, rfl⟩ := List.head?_eq_some_iff.mp head
    rw [← part] at first
    obtain rfl : f = d.name := Option.some.inj first
    exact inside.1
  have here : Piece.token d.name ∈ mid := by
    rw [← part] at name
    obtain ⟨q, hq, token⟩ := List.mem_filterMap.mp name
    exact Piece.eq_token_of_token? token ▸ hq
  obtain ⟨m₁, m₂, rfl⟩ := List.append_of_mem here
  obtain ⟨_, start, front, _⟩ := cut_append.mp inside
  refine ⟨Piece.allText pre, Piece.allText m₁, Piece.allText m₂, Piece.allText post,
    ?_, ?_, ?_, ?_, text ▸ trimmed, ?_⟩
  · rw [← whole]
    simp [Piece.allText, Piece.text]
  · rw [text]
    simp [Piece.text]
  · rw [Place.afterAll_append]
    exact start
  · rwa [List.append_nil] at front
  · intro first
    have offsets := congrArg Place.offset (start.symm.trans (opening first))
    rw [Place.offset_afterAll] at offsets
    exact List.eq_nil_of_length_eq_zero (Nat.add_left_cancel offsets)

/-! ## Descriptors -/

/-- The descriptor points at its name: the line with the number `number`, counted
from zero, has it from the character `margin` on, and it is not longer there.
The declaration stands in the text from `offset` on, around this name. -/
structure Descriptor.PointsAt (d : Descriptor) (source : List Char)
    (number margin offset : Nat) : Prop where
  line : d.line = number + 1
  character : d.character = margin
  written : Shape.name.Matches d.identifier
  name : ∃ row, (source.splitOn '\n')[number]? = some row ∧
    d.identifier <+: row.drop margin ∧
    ∀ c ∈ row[margin + d.identifier.length]?, isNameChar c = false
  declaration : d.declaration <+: source.drop offset
  trimmed : Trimmed d.declaration
  starts : offset ≤ lineOffset source number + margin
  stops : lineOffset source number + margin + d.identifier.length ≤ offset + d.declaration.length

/-- A name stands on one line, with the rest of the line behind it. -/
theorem line_of_name {name : List Char} (h : Shape.name.Matches name) (margin rest : List Char) :
    name <+: (margin ++ (name ++ rest).takeWhile (· != '\n')).drop margin.length ∧
      ∀ c ∈ (margin ++ (name ++ rest).takeWhile (· != '\n'))[margin.length + name.length]?,
        c ∈ rest.head? := by
  have one_line : ∀ c ∈ name, (c != '\n') = true := by
    intro c hc
    have nameChar := h.isNameChar_of_mem c hc
    rw [bne_iff_ne]
    rintro rfl
    exact absurd nameChar (by decide)
  rw [List.takeWhile_append_of_pos one_line]
  refine ⟨?_, ?_⟩
  · rw [List.drop_left]
    exact List.prefix_append _ _
  · intro c hc
    rw [← List.append_assoc, ← List.length_append, List.getElem?_append_right (Nat.le_refl _),
      Nat.sub_self, ← List.head?_eq_getElem?, List.head?_takeWhile] at hc
    exact (Option.mem_filter_iff.mp hc).1

theorem Declared.Stretch.pointsAt {d : Declared} {source pre front back post : List Char}
    (h : d.Stretch source pre front back post) (ident : d.name.terminal = .ident) :
    ∃ number margin, (d.descriptor source).PointsAt source number margin pre.length ∧
      lineOffset source number + margin = pre.length + front.length := by
  obtain ⟨written, stops⟩ := h.fronts.name_stops ident
  obtain ⟨number, margin, line, column, found, offset⟩ :=
    exists_margin (pre ++ front) (d.name.text ++ back ++ post)
  rw [← h.start] at line column
  rw [← h.source_eq] at found offset
  rw [List.length_append] at offset
  obtain ⟨here, behind⟩ := line_of_name written margin (back ++ post)
  rw [← List.append_assoc] at here behind
  refine ⟨number, margin.length, ?_, offset⟩
  refine ⟨?_, ?_, written, ⟨_, found, here, ?_⟩, ?_, h.trimmed, ?_, ?_⟩
  · show (d.name.start.line : Int) = number + 1
    rw [line]
    rfl
  · show (d.name.start.column : Int) - 1 = margin.length
    rw [column]
    omega
  · exact fun c hc => stops c (behind c hc)
  · show d.text source <+: source.drop pre.length
    rw [h.text_eq, h.source_eq, List.append_assoc, List.drop_left]
    exact (List.prefix_append_right_inj front).mpr (List.prefix_append _ post)
  · rw [offset]
    exact Nat.le_add_right _ _
  · show _ + d.name.text.length ≤ _ + (d.text source).length
    rw [offset, h.text_eq, List.length_append, List.length_append]
    omega

/-! ## Every entry of an index -/

theorem mem_of_mem_declaredNames {part : List Token} {t : Token} (h : t ∈ declaredNames part) :
    t ∈ part ∧ t.terminal = .ident := by
  obtain ⟨front, ident⟩ := List.mem_filter.mp h
  exact ⟨(List.takeWhile_sublist _).subset front, of_decide_eq_true ident⟩

/-- A formula has one name, and begins with it. -/
theorem Derives.head?_of_formula {part : List Token} {parts : List ParseTree}
    (h : Derives (.phrase .formulaDeclaration) part parts) :
    ∀ t ∈ declaredNames part, part.head? = some t := by
  obtain ⟨children, rfl, row⟩ := (reads_iff_derives.mpr h).of_phrase
  obtain ⟨_, _, _, _, rfl, rfl, name, row₁⟩ := row.of_row.uncons
  obtain ⟨_, rest, _, _, rfl, rfl, colon, _⟩ := row₁.uncons
  obtain ⟨t, ht, rfl, rfl⟩ := name.of_identifier
  obtain ⟨c, hc, rfl, rfl⟩ := colon.of_terminal
  have run : declaredNames (t :: c :: rest) = [t] := by
    have only := declaredNames_eq .nil ht hc rest
    rw [List.singleton_append] at only
    simp [only, names, ht]
  intro u hu
  obtain rfl := List.mem_singleton.mp (run ▸ hu)
  rfl

/-- Every declared name of a parsed text has a stretch. -/
theorem Declared.exists_stretch_of_parsed {source : List Char} {root : Node} {ts : TokenStream}
    (parsed : parse source = .tree root ts) {x : Declared} (hx : x ∈ declared [] ts.tokens) :
    x.name.terminal = .ident ∧ ∃ pre front back post, x.Stretch source pre front back post := by
  obtain ⟨_, tokens, _⟩ := parse_eq_tree_iff.mp parsed
  obtain ⟨_, before, after, split, _⟩ := (walk_parsed parsed).2 x hx
  obtain ⟨inside, ident⟩ := mem_of_mem_declaredNames (declared_written parsed x hx).2
  exact ⟨ident, exists_stretch (split ▸ tokens) inside⟩

/-- Every entry of the index of a parsed text has a stretch, and a formula begins
with its name. -/
theorem exists_stretch_of_lists {source : List Char} {root : Node} {ts : TokenStream}
    (parsed : parse source = .tree root ts) {kind : DeclarationKind} {d : Descriptor}
    (listed : (Index.ofDeclared source (declared [] ts.tokens)).Lists kind d) :
    ∃ x : Declared, x.descriptor source = d ∧ x.name.terminal = .ident ∧
      (∃ pre front back post, x.Stretch source pre front back post) ∧
      (kind = .formula → x.part.head? = some x.name) := by
  obtain ⟨x, hx, rfl, rfl⟩ := Index.lists_ofDeclared.mp listed
  obtain ⟨⟨parts, derived⟩, name⟩ := declared_written parsed x hx
  obtain ⟨ident, stretch⟩ := Declared.exists_stretch_of_parsed parsed hx
  refine ⟨x, rfl, ident, stretch, ?_⟩
  intro formula
  rw [formula] at derived
  exact derived.head?_of_formula _ name

/-- What an index lists is written like a name. -/
theorem written_of_lists {source : List Char} {root : Node} {ts : TokenStream}
    (parsed : parse source = .tree root ts) {kind : DeclarationKind} {d : Descriptor}
    (listed : (Index.ofDeclared source (declared [] ts.tokens)).Lists kind d) :
    Shape.name.Matches d.identifier := by
  obtain ⟨x, rfl, ident, ⟨_, _, _, _, stretch⟩, _⟩ := exists_stretch_of_lists parsed listed
  exact (stretch.fronts.name_stops ident).1

/-- Every descriptor of a text points at its name.  A formula begins with it. -/
theorem positions_point_at_names (reportDuplicates : Bool) (source : List Char)
    (clean : (parse source).diagnostics = []) :
    ∃ index duplicates,
      Report.ofSource reportDuplicates source = .ok (.indexed index duplicates) ∧
      ∀ kind d, index.Lists kind d → ∃ number margin offset,
        d.PointsAt source number margin offset ∧
        (kind = .formula → d.identifier <+: d.declaration ∧
          offset = lineOffset source number + margin) := by
  obtain ⟨root, ts, parsed⟩ := parse_diagnostics_eq_nil_iff.mp clean
  obtain ⟨duplicates, report⟩ := Report.ofSource_parsed parsed reportDuplicates
  refine ⟨_, duplicates, report, ?_⟩
  intro kind d listed
  obtain ⟨x, rfl, ident, ⟨pre, front, back, post, stretch⟩, first⟩ :=
    exists_stretch_of_lists parsed listed
  obtain ⟨number, margin, points, offset⟩ := stretch.pointsAt ident
  refine ⟨number, margin, pre.length, points, ?_⟩
  intro formula
  obtain rfl := stretch.first (first formula)
  refine ⟨?_, offset.symm⟩
  show x.name.text <+: x.text source
  rw [stretch.text_eq]
  exact List.prefix_append _ _

/-- The small theory on three lines, with a comment. -/
def threeLineTheory : List Char :=
  "T: THEORY\r\nBEGIN %∀\n\tm, n: TYPE c: AXIOM p END T".toList

theorem positions_point_at_names_threeLineTheory :
    (parse threeLineTheory).diagnostics = [] ∧
      ∃ number margin offset, Descriptor.PointsAt ⟨['c'], 3, 12, "c: AXIOM p".toList⟩
        threeLineTheory number margin offset ∧
        offset = lineOffset threeLineTheory number + margin := by
  obtain ⟨ts, tokens, terminals⟩ : ∃ ts, tokenize threeLineTheory = .ok ts ∧
      ts.map Token.terminal = smallTheoryTokens.map Token.terminal := ⟨_, rfl, rfl⟩
  obtain ⟨_, reading⟩ := smallTheory_reads
  obtain ⟨_, derived⟩ := (reads_iff_derives.mp reading).of_terminals terminals
  obtain ⟨_, root, _, _, parsed⟩ := parse_eq_tree_of_reads tokens (reads_iff_derives.mpr derived)
  have clean : (parse threeLineTheory).diagnostics = [] := by
    rw [parsed, Parsed.diagnostics]
  have formulas : (tokenize threeLineTheory).map
        (fun ts => (Index.ofDeclared threeLineTheory (declared [] ts)).formulas) =
      .ok [⟨['c'], 3, 12, "c: AXIOM p".toList⟩] := by
    rfl
  rw [tokens] at formulas
  have formulas := Except.ok.inj formulas
  obtain ⟨index, _, report, points⟩ := positions_point_at_names true threeLineTheory clean
  obtain ⟨_, same⟩ := Report.ofSource_parsed parsed true
  rw [report] at same
  cases same
  have listed : ⟨['c'], 3, 12, "c: AXIOM p".toList⟩ ∈ Index.formulas _ :=
    formulas ▸ List.mem_cons_self
  obtain ⟨number, margin, offset, pointed, formula⟩ := points .formula _ (Or.inl listed)
  exact ⟨clean, number, margin, offset, pointed, (formula rfl).2⟩

end PvsIndex
