import Mathlib.Data.List.Forall2
import PvsIndex.Proofs.Declaration.Pointing

/-!
# Excerpts

A text can be cut down to the stretch from one of its tokens through another.  Read
by itself, the stretch has the same tokens again: a piece that was cut off a longer
text is cut off in the same way when what is behind it ends earlier, and what was
before it never mattered.

Only the places are others.  They are counted from the beginning of the stretch
(`Place.CountedFrom`), which one character more does not change on either side
(`Place.CountedFrom.after`).
-/

namespace PvsIndex

/-! ## Counting from another place -/

/-- The place `q` is the place `p`, if one starts to count at `origin`.  Columns are
others on the line of the origin only. -/
structure Place.CountedFrom (origin p q : Place) : Prop where
  offset : p.offset = origin.offset + q.offset
  line : p.line + 1 = origin.line + q.line
  below : 1 ≤ q.line
  column : p.column + 1 = if p.line = origin.line then origin.column + q.column else q.column + 1

namespace Place.CountedFrom

variable {origin p q : Place}

theorem refl (origin : Place) : origin.CountedFrom origin .start where
  offset := rfl
  line := rfl
  below := Nat.le_refl 1
  column := by rw [if_pos rfl]; rfl

theorem after (h : origin.CountedFrom p q) (c : Char) :
    origin.CountedFrom (p.after c) (q.after c) := by
  obtain ⟨offset, line, below, column⟩ := h
  unfold Place.after
  split
  · refine ⟨?_, ?_, ?_, ?_⟩
    · show p.offset + 1 = origin.offset + (q.offset + 1)
      omega
    · show p.line + 1 + 1 = origin.line + (q.line + 1)
      omega
    · exact Nat.succ_pos _
    · -- behind a line feed both columns begin again
      show 1 + 1 = if p.line + 1 = origin.line then _ else 1 + 1
      rw [if_neg (by omega)]
  · refine ⟨?_, line, below, ?_⟩
    · show p.offset + 1 = origin.offset + (q.offset + 1)
      omega
    · show p.column + 1 + 1 = if p.line = origin.line then origin.column + (q.column + 1)
        else q.column + 1 + 1
      rw [column]
      split
      · omega
      · rfl

theorem afterAll (h : origin.CountedFrom p q) (text : List Char) :
    origin.CountedFrom (p.afterAll text) (q.afterAll text) := by
  induction text generalizing p q with
  | nil => exact h
  | cons c text ih => exact ih (h.after c)

end Place.CountedFrom

/-- The same word, if one starts to count at `origin`. -/
structure Token.CountedFrom (origin : Place) (t u : Token) : Prop where
  terminal : u.terminal = t.terminal
  text : u.text = t.text
  start : origin.CountedFrom t.start u.start
  stop : origin.CountedFrom t.stop u.stop

/-- Pieces that stand somewhere have their tokens again where they are put, counted
from the origin. -/
theorem Cut.countedFrom {origin : Place} {rest : List Char} : ∀ {qs : List Piece} {p q : Place},
    Cut p qs rest → origin.CountedFrom p q →
      List.Forall₂ (Token.CountedFrom origin) (qs.filterMap Piece.token?)
        ((Piece.settle q qs).filterMap Piece.token?)
  | [], _, _, _, _ => .nil
  | .blank _ text :: _, _, _, ⟨_, _, cut⟩, counted => cut.countedFrom (counted.afterAll text)
  | .comment _ text :: _, _, _, ⟨_, _, cut⟩, counted => cut.countedFrom (counted.afterAll text)
  | .unreadable u :: _, _, _, ⟨_, _, cut⟩, counted => cut.countedFrom (counted.afterAll [u.char])
  | .token t :: _, _, _, ⟨rfl, _, cut⟩, counted =>
      .cons ⟨rfl, rfl, counted, counted.afterAll t.text⟩ (cut.countedFrom (counted.afterAll t.text))

/-! ## The stretch between two tokens -/

/-- The stretch of a readable text from one token through another has the tokens
between them, counted from its beginning. -/
theorem exists_excerpt {source : List Char} {before part after : List Token}
    (tokens : tokenize source = .ok (before ++ part ++ after)) {first last : Token}
    (head : part.head? = some first) (tail : part.getLast? = some last) (stream : List Token) :
    ∃ ts, tokenize (TokenStream.slice ⟨source, stream⟩ ⟨first.start, last.stop⟩) = .ok ts ∧
      List.Forall₂ (Token.CountedFrom first.start) part ts := by
  obtain ⟨readable, found⟩ := readableTokens_eq_ok_iff.mp tokens
  have nonempty : part ≠ [] := by
    rintro rfl
    cases head
  obtain ⟨pre, mid, post, split, rfl, limits⟩ := exists_delimited found nonempty
  have cut := cut_scan source
  rw [split] at cut readable
  have whole : source = Piece.allText (pre ++ mid ++ post) := by
    rw [← split, Piece.allText, scan_text]
  obtain ⟨f, opening⟩ := limits.first
  obtain ⟨l, closing⟩ := limits.last
  obtain rfl : f = first := Option.some.inj ((head?_filterMap_token? opening).symm.trans head)
  obtain rfl : l = last := Option.some.inj ((getLast?_filterMap_token? closing).symm.trans tail)
  have readable_mid : ∀ q ∈ mid, q.isReadable = true := by
    intro q hq
    exact readable q (by simp [hq])
  have here := (cut_append.mp (cut_append.mp cut).1).2
  have start : Place.start.afterAll (Piece.allText pre) = f.start := by
    obtain ⟨rest, rfl⟩ := List.head?_eq_some_iff.mp opening
    exact here.1.symm
  have alone : FrontsAll mid [] := @FrontsAll.truncate [] _ _ here.frontsAll readable_mid
  rw [start] at here
  refine ⟨(Piece.settle .start mid).filterMap Piece.token?, ?_, here.countedFrom (.refl _)⟩
  rw [whole, cut.slice_eq_allText opening closing]
  exact alone.tokenize_eq readable_mid

/-- Every stretch of a parsed text from one token through another, read by itself, has
the same tokens, counted from its beginning. -/
theorem excerpt_reads_alike {source : List Char} {root : Node} {stream : TokenStream}
    (parsed : parse source = .tree root stream) {a b : Nat} (order : a ≤ b)
    (within : b < stream.tokens.length) :
    ∃ first text ts, stream.tokens[a]? = some first ∧ stream.text a b = .ok text ∧
      tokenize text = .ok ts ∧ ts.length = b - a + 1 ∧
      List.Forall₂ (Token.CountedFrom first.start) (stream.tokens.extract a (b + 1)) ts := by
  obtain ⟨rfl, tokens, _⟩ := parse_eq_tree_iff.mp parsed
  have split : stream.tokens =
      stream.tokens.take a ++ stream.tokens.extract a (b + 1) ++ stream.tokens.drop (b + 1) := by
    have front : stream.tokens.take a ++ stream.tokens.extract a (b + 1) =
        stream.tokens.take (b + 1) := by
      have count : a + (b + 1 - a) = b + 1 := by omega
      rw [List.extract_eq_take_drop, ← List.take_add, count]
    rw [front, List.take_append_drop]
  have length : (stream.tokens.extract a (b + 1)).length = b - a + 1 := by
    rw [List.extract_eq_take_drop, List.length_take, List.length_drop]
    omega
  have inside {i : Nat} (h : i < b - a + 1) :
      (stream.tokens.extract a (b + 1))[i]? = stream.tokens[a + i]? := by
    rw [List.extract_eq_take_drop, List.getElem?_take_of_lt (by omega), List.getElem?_drop]
  have first : stream.tokens[a]? = some (stream.tokens[a]) := List.getElem?_eq_getElem _
  have last : stream.tokens[b]? = some (stream.tokens[b]) := List.getElem?_eq_getElem _
  have head : (stream.tokens.extract a (b + 1)).head? = some (stream.tokens[a]) := by
    rw [List.head?_eq_getElem?, inside (Nat.succ_pos _)]
    exact first
  have tail : (stream.tokens.extract a (b + 1)).getLast? = some (stream.tokens[b]) := by
    rw [List.getLast?_eq_getElem?, length, inside (by omega), ← last]
    congr 1
    omega
  obtain ⟨ts, read, counted⟩ := exists_excerpt (split ▸ tokens) head tail stream.tokens
  refine ⟨stream.tokens[a], _, ts, first, ?_, read, ?_, counted⟩
  · rw [TokenStream.text, TokenStream.span, TokenStream.token?_natCast, TokenStream.token?_natCast,
      first, last]
    rfl
  · rw [← counted.length_eq, length]

theorem excerpt_reads_alike_threeLineTheory :
    ∃ root stream, parse threeLineTheory = .tree root stream ∧ 2 ≤ 4 ∧ 4 < stream.tokens.length ∧
      ∃ first ts, stream.tokens[2]? = some first ∧
        tokenize "THEORY\r\nBEGIN %∀\n\tm".toList = .ok ts ∧
        List.Forall₂ (Token.CountedFrom first.start) (stream.tokens.extract 2 5) ts := by
  obtain ⟨ts, tokens, terminals, texts⟩ : ∃ ts, tokenize threeLineTheory = .ok ts ∧
      ts.map Token.terminal = smallTheoryTokens.map Token.terminal ∧
      TokenStream.text ⟨threeLineTheory, ts⟩ 2 4 = .ok "THEORY\r\nBEGIN %∀\n\tm".toList :=
    ⟨_, rfl, rfl, rfl⟩
  obtain ⟨_, reading⟩ := smallTheory_reads
  obtain ⟨_, derived⟩ := (reads_iff_derives.mp reading).of_terminals terminals
  obtain ⟨_, root, _, _, parsed⟩ := parse_eq_tree_of_reads tokens (reads_iff_derives.mpr derived)
  have within : 4 < ts.length := by
    have same := congrArg List.length terminals
    rw [List.length_map, List.length_map] at same
    rw [same]
    decide
  obtain ⟨first, text, us, here, cut, read, _, counted⟩ :=
    excerpt_reads_alike parsed (show 2 ≤ 4 by decide) within
  obtain rfl := Except.ok.inj (cut.symm.trans texts)
  exact ⟨root, _, parsed, by decide, within, first, us, here, read, counted⟩

end PvsIndex
