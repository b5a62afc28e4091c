import PvsIndex.Proofs.Token.Coverage
import PvsIndex.Proofs.Token.LetterCase

/-!
# The first match is the longest

Shapes are tried in a fixed order, and the first that takes anything wins.  That
this is no loss is a matter of the order.  Two different shapes can begin with one
character only if they are marks, or if one is a keyword (`Shape.eq_or_marks`).
Marks are tried from the longest to the shortest.  A keyword is written with name
characters, so a name takes at least as much, and names are tried first: the
keywords of the order never get their turn.

The last step needs a text without three characters which are not letters and
still fold into some (`strangers`).  At such a character no name begins, but a
keyword may, and it is cut off even if a longer name would be written there.
-/

namespace PvsIndex

/-! ## Characters that fold into letters -/

/-- The characters outside the alphabet that fold into its letters. -/
def strangers : List Char :=
  ['\u0130', '\u0131', '\u017f']

/-- None of the characters folds into a letter without being one. -/
def IsPlain (text : List Char) : Prop :=
  ∀ c ∈ text, c ∉ strangers

theorem fold_of_not_isLetter {c : Char} (plain : c ∉ strangers) (other : isLetter c = false) :
    fold c = c := by
  have small : ('a' ≤ c && c ≤ 'z') = false := (Bool.or_eq_false_iff.mp other).1
  have apart : c ≠ 'ı' ∧ c ≠ 'İ' ∧ c ≠ 'ſ' := by
    refine ⟨?_, ?_, ?_⟩
    · rintro rfl
      exact plain (by decide)
    · rintro rfl
      exact plain (by decide)
    · rintro rfl
      exact plain (by decide)
  simp [fold, apart, small]

/-- Folding changes the case of letters and nothing else. -/
theorem recases_fold {c : Char} (plain : c ∉ strangers) : Recases (fold c) c := by
  cases letter : isLetter c with
  | false => exact Or.inl (fold_of_not_isLetter plain letter).symm
  | true =>
      have each : c = fold c ∨ isLetter (fold c) = true ∧
          (c = (fold c).toUpper ∨ c = (fold c).toLower) :=
        of_decide_eq_true (forall_isLetter (f := fun c => decide (c = fold c ∨
          isLetter (fold c) = true ∧ (c = (fold c).toUpper ∨ c = (fold c).toLower)))
          (by decide +kernel) letter)
      exact each

/-- A text is folded into a word of capitals if and only if it is the word, with
letters in either case. -/
theorem IsPlain.map_fold_eq_iff {text : List Char} (plain : IsPlain text) {word : List Char}
    (capitals : word.map fold = word) : text.map fold = word ↔ RecasesAll word text := by
  constructor
  · rintro rfl
    show List.Forall₂ Recases (text.map fold) text
    rw [List.forall₂_map_left_iff, List.forall₂_same]
    intro c hc
    exact recases_fold (plain c hc)
  · intro same
    exact same.map_fold.trans capitals

namespace Keyword

theorem map_fold_spelling (k : Keyword) : k.spelling.toList.map fold = k.spelling.toList := by
  cases k <;> decide

/-- A keyword could be a name. -/
theorem matches_spelling (k : Keyword) : Shape.name.Matches k.spelling.toList := by
  have each : ∀ k ∈ all, Shape.name.munch k.spelling.toList = k.spelling.toList.length ∧
      k.spelling.toList.length ≠ 0 := by
    decide +kernel
  obtain ⟨whole, nonzero⟩ := each k (List.mem_of_getElem? k.all_index)
  have fits := Shape.matches_take (whole ▸ nonzero)
  rwa [whole, List.take_length] at fits

theorem eq_of_spelling {k l : Keyword} (h : k.spelling.toList = l.spelling.toList) : k = l := by
  have each : ∀ k ∈ all, ∀ l ∈ all, k.spelling.toList = l.spelling.toList → k = l := by
    decide +kernel
  exact each k (List.mem_of_getElem? k.all_index) l (List.mem_of_getElem? l.all_index) h

end Keyword

theorem Mark.eq_of_spelling {m n : Mark} (h : m.spelling.toList = n.spelling.toList) : m = n := by
  have each : ∀ m ∈ all, ∀ n ∈ all, m.spelling.toList = n.spelling.toList → m = n := by
    decide +kernel
  exact each m (List.mem_of_getElem? m.all_index) n (List.mem_of_getElem? n.all_index) h

/-! ## Keywords are written like names -/

theorem RecasesAll.forall_isNameChar {word text : List Char} (h : RecasesAll word text)
    (inside : ∀ c ∈ word, isNameChar c = true) : ∀ c ∈ text, isNameChar c = true := by
  induction h with
  | nil => exact nofun
  | cons same _ ih =>
      rw [List.forall_mem_cons] at inside ⊢
      exact ⟨(same.congr isNameChar_of_isLetter).trans inside.1, ih inside.2⟩

namespace Shape

/-- A name stays one if its letters are in another case. -/
theorem Matches.recased {word text : List Char} (h : Shape.name.Matches word)
    (same : RecasesAll word text) : Shape.name.Matches text := by
  cases h with
  | name letter inside =>
      cases same with
      | cons first others =>
          exact .name (first.isLetter_eq.trans letter) (RecasesAll.forall_isNameChar others inside)

theorem matches_keyword_iff {k : Keyword} {text : List Char} (plain : IsPlain text) :
    (keyword k).Matches text ↔ RecasesAll k.spelling.toList text := by
  rw [← plain.map_fold_eq_iff k.map_fold_spelling]
  constructor
  · intro fits
    cases fits with
    | keyword spelled => exact spelled
  · exact Matches.keyword

theorem munch_keyword_le {cs : List Char} (plain : IsPlain cs) (k : Keyword) :
    (keyword k).munch cs ≤ name.munch cs := by
  by_cases nothing : (keyword k).munch cs = 0
  · rw [nothing]
    exact Nat.zero_le _
  · have taken : IsPlain (cs.take ((keyword k).munch cs)) :=
      fun c hc => plain c (List.mem_of_mem_take hc)
    have fits := k.matches_spelling.recased ((matches_keyword_iff taken).mp (matches_take nothing))
    have within := fits.length_le (cs.drop ((keyword k).munch cs))
    rwa [List.take_append_drop, List.length_take, Nat.min_eq_left (munch_le _ cs)] at within

/-! ## What begins with one character -/

/-- Is it the shape of a keyword? -/
def isKeyword : Shape → Bool
  | keyword _ => true
  | _ => false

theorem Matches.opensWith {s : Shape} {c : Char} {cs : List Char} (h : s.Matches (c :: cs)) :
    s.opensWith c = true := by
  have fits := h.length_le []
  rw [List.append_nil] at fits
  exact opensWith_of_munch (Nat.ne_of_gt (Nat.lt_of_lt_of_le (Nat.succ_pos _) fits))

/-- Only a name begins with a letter, keywords apart. -/
theorem eq_name_of_opensWith {s : Shape} {c : Char} (letter : isLetter c = true)
    (plain : s.isKeyword = false) (h : s.opensWith c = true) : s = .name := by
  have each := @forall_isLetter
    (fun c => order.all fun s => decide (s.isKeyword = false → s.opensWith c = true → s = .name))
    true (by decide +kernel) c letter
  exact of_decide_eq_true (List.all_eq_true.mp each s s.mem_order) plain h

theorem mem_figures {c : Char} (h : isFigure c = true) : c ∈ "0123456789".toList := by
  obtain ⟨low, high⟩ : '0' ≤ c ∧ c ≤ '9' := by simpa [isFigure] using h
  have low : 48 ≤ c.toNat := UInt32.le_iff_toNat_le.mp low
  have high : c.toNat ≤ 57 := UInt32.le_iff_toNat_le.mp high
  have each : ∀ n ≤ 57, 48 ≤ n → Char.ofNat n ∈ "0123456789".toList := by decide
  have listed := each c.toNat high low
  rwa [Char.ofNat_toNat] at listed

/-- Only a number begins with a figure, keywords apart. -/
theorem eq_number_of_opensWith {s : Shape} {c : Char} (figure : isFigure c = true)
    (plain : s.isKeyword = false) (h : s.opensWith c = true) : s = .number := by
  have each : order.all (fun s => "0123456789".toList.all fun c =>
      decide (s.isKeyword = false → s.opensWith c = true → s = .number)) = true := by
    decide +kernel
  have here := List.all_eq_true.mp (List.all_eq_true.mp each s s.mem_order) c (mem_figures figure)
  exact of_decide_eq_true here plain h

/-- Two shapes that can begin with one character are the same or both marks,
keywords apart. -/
theorem eq_or_marks {s s' : Shape} {c : Char} (plain : s.isKeyword = false)
    (plain' : s'.isKeyword = false) (h : s.opensWith c = true) (h' : s'.opensWith c = true) :
    s' = s ∨ ∃ m n, s = .mark m ∧ s' = .mark n := by
  -- a class of characters that one of the two begins with settles the other
  have settled {a b : Shape} (plain : b.isKeyword = false) (ha : a.opensWith c = true)
      (hb : b.opensWith c = true) (word : a.isKeyword = false ∧ ∀ m, a ≠ .mark m) : b = a := by
    cases a with
    | name => exact eq_name_of_opensWith ha plain hb
    | number => exact eq_number_of_opensWith ha plain hb
    | blank => exact eq_blank_of_opensWith ha hb
    | string =>
        obtain rfl : c = '"' := of_decide_eq_true ha
        exact eq_string_of_opensWith hb
    | comment =>
        obtain rfl : c = '%' := of_decide_eq_true ha
        exact eq_comment_of_opensWith hb
    | keyword k => cases word.1
    | mark m => exact absurd rfl (word.2 m)
  by_cases first : ∃ m, s = .mark m
  · by_cases second : ∃ n, s' = .mark n
    · obtain ⟨m, rfl⟩ := first
      obtain ⟨n, rfl⟩ := second
      exact Or.inr ⟨m, n, rfl, rfl⟩
    · exact Or.inl (settled plain h' h ⟨plain', fun n same => second ⟨n, same⟩⟩).symm
  · exact Or.inl (settled plain' h h' ⟨plain, fun m same => first ⟨m, same⟩⟩)

/-! ## The first shape takes the most -/

theorem first?_eq_name {cs : List Char} (taken : name.munch cs ≠ 0) : first? cs = some .name := by
  have first : order = name :: order.tail := rfl
  rw [first?, first, List.find?_cons_of_pos (by simpa using taken)]

/-- A keyword never gets its turn. -/
theorem isKeyword_of_first? {cs : List Char} {s : Shape} (plain : IsPlain cs)
    (found : first? cs = some s) : s.isKeyword = false := by
  cases s with
  | keyword k =>
      exfalso
      have taken := munch_ne_zero found
      have more := munch_keyword_le plain k
      have first := first?_eq_name (show name.munch cs ≠ 0 by omega)
      rw [found] at first
      cases first
  | _ => rfl

theorem munch_mark_le (m : Mark) (cs : List Char) :
    (mark m).munch cs ≤ m.spelling.toList.length := by
  show munchWord id m.spelling.toList cs ≤ _
  unfold munchWord
  split
  · exact Nat.le_refl _
  · exact Nat.zero_le _

theorem munch_mark_of_ne_zero {m : Mark} {cs : List Char} (taken : (mark m).munch cs ≠ 0) :
    (mark m).munch cs = m.spelling.toList.length := by
  show munchWord id m.spelling.toList cs = _
  change munchWord id m.spelling.toList cs ≠ 0 at taken
  unfold munchWord at taken ⊢
  split at taken
  next found => rw [if_pos found]
  next => exact absurd rfl taken

/-- If the first shape is a mark, it is the first of the marks. -/
theorem find?_mark {m : Mark} {cs : List Char} (found : first? cs = some (.mark m)) :
    Mark.longestFirst.find? (fun m => (mark m).munch cs != 0) = some m := by
  have split : order = ([name, number, blank, string, comment] ++
      Keyword.longestFirst.map keyword) ++ Mark.longestFirst.map mark := rfl
  rw [first?, split, List.find?_append] at found
  cases before : ([name, number, blank, string, comment] ++
      Keyword.longestFirst.map keyword).find? (fun s => s.munch cs != 0) with
  | some s =>
      rw [before, Option.some_or] at found
      cases found
      have among := List.mem_of_find?_eq_some before
      simp at among
  | none =>
      rw [before, Option.none_or, List.find?_map] at found
      obtain ⟨n, first, same⟩ := Option.map_eq_some_iff.mp found
      cases same
      exact first

/-- The first mark that takes anything takes the most, since longer ones are tried
first. -/
theorem munch_mark_le_of_first? {m n : Mark} {cs : List Char}
    (found : first? cs = some (.mark m)) : (mark n).munch cs ≤ (mark m).munch cs := by
  have sorted : Mark.longestFirst.Pairwise
      fun m n => n.spelling.toList.length ≤ m.spelling.toList.length := by
    decide +kernel
  have among := find?_mark found
  obtain ⟨taken, before, after, split, idle⟩ := List.find?_eq_some_iff_append.mp among
  have whole := munch_mark_of_ne_zero (show (mark m).munch cs ≠ 0 by simpa using taken)
  have listed := n.mem_longestFirst
  rw [split, List.mem_append, List.mem_cons] at listed
  rw [split, List.pairwise_append, List.pairwise_cons] at sorted
  rcases listed with earlier | rfl | later
  · have nothing : (mark n).munch cs = 0 := by simpa using idle n earlier
    rw [nothing]
    exact Nat.zero_le _
  · exact Nat.le_refl _
  · rw [whole]
    exact Nat.le_trans (munch_mark_le n cs) (sorted.2.1.1 n later)

/-- No shape takes more than the first that takes anything. -/
theorem munch_le_of_first? {cs : List Char} {s : Shape} (plain : IsPlain cs)
    (found : first? cs = some s) (a : Shape) : a.munch cs ≤ s.munch cs := by
  by_cases nothing : a.munch cs = 0
  · rw [nothing]
    exact Nat.zero_le _
  · cases fixed : a.isKeyword with
    | true =>
        obtain ⟨k, rfl⟩ : ∃ k, a = .keyword k := by
          cases a with
          | keyword k => exact ⟨k, rfl⟩
          | _ => cases fixed
        have more := munch_keyword_le plain k
        have first := first?_eq_name (show name.munch cs ≠ 0 by omega)
        obtain rfl : s = .name := Option.some.inj (found.symm.trans first)
        exact more
    | false =>
        cases cs with
        | nil => exact absurd (Nat.le_zero.mp (munch_le a [])) nothing
        | cons c rest =>
            rcases eq_or_marks (isKeyword_of_first? plain found) fixed
              (opensWith_of_munch (munch_ne_zero found)) (opensWith_of_munch nothing) with
              rfl | ⟨m, n, rfl, rfl⟩
            · exact Nat.le_refl _
            · exact munch_mark_le_of_first? found

/-! ## Texts of one shape only -/

/-- A text that is no keyword is of one shape at most. -/
theorem Matches.unique {s s' : Shape} {text : List Char} (plain : s.isKeyword = false)
    (plain' : s'.isKeyword = false) (h : s.Matches text) (h' : s'.Matches text) : s' = s := by
  obtain ⟨c, cs, rfl⟩ := List.exists_cons_of_ne_nil h.ne_nil
  rcases eq_or_marks plain plain' h.opensWith h'.opensWith with same | ⟨m, n, rfl, rfl⟩
  · exact same
  · have spelled : m.spelling.toList = c :: cs := by
      generalize c :: cs = text at h
      cases h with
      | mark m => rfl
    have spelled' : n.spelling.toList = c :: cs := by
      generalize c :: cs = text at h'
      cases h' with
      | mark n => rfl
    rw [Mark.eq_of_spelling (spelled'.trans spelled.symm)]

/-- The piece that a text of this shape is at a place, if a name is never a
keyword. -/
def plainPiece (p : Place) (text : List Char) : Shape → Piece
  | name => .token ⟨p, .ident, text⟩
  | s => s.piece p text

theorem keyword?_eq_some_iff {text : List Char} {k : Keyword} :
    keyword? text = some k ↔ text.map fold = k.spelling.toList := by
  constructor
  · intro found
    have same : k.spelling.toList = text.map fold := by simpa using List.find?_some found
    exact same.symm
  · intro spelled
    cases found : keyword? text with
    | some l =>
        have same : l.spelling.toList = text.map fold := by simpa using List.find?_some found
        rw [Keyword.eq_of_spelling (same.trans spelled)]
    | none =>
        have other := List.find?_eq_none.mp found k (List.mem_of_getElem? k.all_index)
        exact absurd (decide_eq_true spelled.symm) other

end Shape

/-! ## Pieces -/

/-- The piece is the longest that could be cut off where it stands.  It is a keyword
if it is one in whatever case, and otherwise what the only shape that its text is of
makes of it. -/
structure Piece.IsLongest (q : Piece) (source : List Char) : Prop where
  here : q.text <+: source.drop q.start.offset
  longest : ∀ (s : Shape) (text : List Char), text <+: source.drop q.start.offset →
    s.Matches text → text.length ≤ q.text.length
  keyword : ∀ k : Keyword, RecasesAll k.spelling.toList q.text →
    q = .token ⟨q.start, .keyword k, q.text⟩
  other : (∀ k : Keyword, ¬ RecasesAll k.spelling.toList q.text) →
    ∃ s : Shape, s.Matches q.text ∧ (∀ s' : Shape, s'.Matches q.text → s' = s) ∧
      q = s.plainPiece q.start q.text

/-- Every piece is cut off at the front of what is left where it starts. -/
theorem exists_split_of_mem_scan {source : List Char} {q : Piece} (h : q ∈ scan source) :
    ∃ before behind, source = before ++ (q.text ++ behind) ∧
      q.start = Place.start.afterAll before ∧ Fronts q behind := by
  obtain ⟨pre, post, pieces⟩ := List.append_of_mem h
  have cut := cut_scan source
  have whole := scan_text source
  rw [pieces, cut_append] at cut
  rw [pieces, List.flatMap_append, List.flatMap_cons] at whole
  obtain ⟨_, start, front, _⟩ := cut
  rw [List.append_nil] at front
  exact ⟨Piece.allText pre, Piece.allText post, whole.symm, start, front⟩

theorem Fronts.isLongest {q : Piece} {before behind source : List Char} (front : Fronts q behind)
    (readable : q.isReadable = true) (whole : source = before ++ (q.text ++ behind))
    (start : q.start.offset = before.length) (plain : IsPlain (q.text ++ behind)) :
    q.IsLongest source := by
  have left : source.drop q.start.offset = q.text ++ behind := by
    rw [whole, start, List.drop_left]
  cases front with
  | unreadable _ _ => cases readable
  | @shaped s text _ p found taken =>
      rw [Shape.text_piece] at left plain
      have fits := Shape.matches_take (Shape.munch_ne_zero found)
      rw [taken, List.take_left] at fits
      have plain_text : IsPlain text := fun c hc => plain c (List.mem_append_left _ hc)
      refine ⟨?_, ?_, ?_, ?_⟩
      · rw [left, Shape.text_piece]
        exact List.prefix_append _ _
      · intro a other front within
        rw [left] at front
        obtain ⟨rest, same⟩ := front
        have room := within.length_le rest
        rw [same] at room
        rw [Shape.text_piece, ← taken]
        exact Nat.le_trans room (Shape.munch_le_of_first? plain found a)
      · intro k same
        rw [Shape.text_piece] at same ⊢
        have named := k.matches_spelling.recased same
        have room := named.length_le behind
        have nonzero := List.length_pos_of_ne_nil named.ne_nil
        have first := Shape.first?_eq_name (show Shape.name.munch (text ++ behind) ≠ 0 by omega)
        obtain rfl : s = .name := Option.some.inj (found.symm.trans first)
        have spelled := (plain_text.map_fold_eq_iff k.map_fold_spelling).mpr same
        show Piece.token ⟨p, Shape.nameTerminal text, text⟩ = .token ⟨p, .keyword k, text⟩
        rw [Shape.nameTerminal, Shape.keyword?_eq_some_iff.mpr spelled]
      · intro other
        rw [Shape.text_piece] at other ⊢
        have no_keyword : ∀ s' : Shape, s'.Matches text → s'.isKeyword = false := by
          intro s' fits'
          cases s' with
          | keyword k => exact absurd ((Shape.matches_keyword_iff plain_text).mp fits') (other k)
          | _ => rfl
        refine ⟨s, fits, fun s' fits' => ?_, ?_⟩
        · exact fits.unique (no_keyword s fits) (no_keyword s' fits') fits'
        · rw [Shape.start_piece]
          cases s with
          | name =>
              show Piece.token ⟨p, Shape.nameTerminal text, text⟩ = .token ⟨p, .ident, text⟩
              have plain_name : Shape.keyword? text = none := by
                refine Option.eq_none_iff_forall_ne_some.mpr fun k found => other k ?_
                have spelled := Shape.keyword?_eq_some_iff.mp found
                exact (plain_text.map_fold_eq_iff k.map_fold_spelling).mp spelled
              rw [Shape.nameTerminal, plain_name]
          | _ => rfl

/-- In a text without characters that fold into letters and are none, every piece is
the longest that could be cut off where it stands.  Nothing is cut off only where a
character begins no shape. -/
theorem scan_takes_longest {source : List Char} (plain : IsPlain source) :
    (∀ q ∈ scan source, q.isReadable = true → q.IsLongest source) ∧
      (∀ u, .unreadable u ∈ scan source → source[u.place.offset]? = some u.char ∧
        ∀ (s : Shape) (text : List Char), text <+: source.drop u.place.offset →
          ¬ s.Matches text) ∧
      ∀ u, tokenize source = .error u → .unreadable u ∈ scan source := by
  refine ⟨?_, ?_, ?_⟩
  · intro q hq readable
    obtain ⟨before, behind, whole, start, front⟩ := exists_split_of_mem_scan hq
    refine front.isLongest readable whole ?_ ?_
    · rw [start, Place.offset_start_afterAll]
    · intro c hc
      refine plain c ?_
      rw [whole]
      exact List.mem_append_right _ hc
  · intro u hu
    obtain ⟨before, behind, whole, start, front⟩ := exists_split_of_mem_scan hu
    have offset : u.place.offset = before.length := by
      rw [show u.place = _ from start, Place.offset_start_afterAll]
    have nothing := front.of_unreadable
    rw [offset, whole, List.drop_left]
    refine ⟨?_, Shape.first?_eq_none_iff.mp nothing⟩
    rw [List.getElem?_append_right (Nat.le_refl _), Nat.sub_self]
    rfl
  · intro u failed
    obtain ⟨q, hq, same⟩ := List.exists_of_findSome?_eq_some (readableTokens_eq_error_iff.mp failed)
    obtain rfl : q = .unreadable u := by
      cases q <;> cases same
      rfl
    exact hq

/-- A text of an identifier, a mark and a keyword, with nothing between. -/
def denseText : List Char :=
  "iffy<=>If".toList

theorem scan_takes_longest_dense :
    IsPlain denseText ∧
      (Piece.token ⟨⟨0, 1, 1⟩, .ident, "iffy".toList⟩).IsLongest denseText ∧
      (Piece.token ⟨⟨4, 1, 5⟩, .mark .equivalent, "<=>".toList⟩).IsLongest denseText ∧
      (Piece.token ⟨⟨7, 1, 8⟩, .keyword .IF, "If".toList⟩).IsLongest denseText := by
  have plain : IsPlain denseText := by
    have each : denseText.all (· ∉ strangers) = true := by decide
    exact fun c hc => of_decide_eq_true (List.all_eq_true.mp each c hc)
  have longest := (scan_takes_longest plain).1
  have pieces : scan denseText = [.token ⟨⟨0, 1, 1⟩, .ident, "iffy".toList⟩,
      .token ⟨⟨4, 1, 5⟩, .mark .equivalent, "<=>".toList⟩,
      .token ⟨⟨7, 1, 8⟩, .keyword .IF, "If".toList⟩] := by
    decide +kernel
  rw [pieces] at longest
  refine ⟨plain, longest _ ?_ rfl, longest _ ?_ rfl, longest _ ?_ rfl⟩
  · exact List.mem_cons_self
  · exact List.mem_cons_of_mem _ List.mem_cons_self
  · exact List.mem_cons_of_mem _ (List.mem_cons_of_mem _ List.mem_cons_self)

end PvsIndex
