import PvsIndex.Proofs.Token.Language
import PvsIndex.Proofs.Text.Lines
import PvsIndex.Proofs.Parse.Unreadable

/-!
# Tokens cover a text

The tokens of a text stand in it one behind the other, each where it says and as
it says, and what is left over is blanks and comments.  `Covers source stop ts`
is all of this for the tokens `ts` of the text up to the offset `stop`.  It
speaks about offsets into the text alone and not about how the tokens were found.

The gaps are followed along the solid pieces of the text, with the part of the
gap that has been passed already: layout is taken off in small portions, and a
gap is complete where the next token begins (`Yields.isLayout_gaps`).  A text
that cannot be read is read up to its first unreadable character as if it ended
there (`tokenize_eq_error`).
-/

namespace PvsIndex

/-! ## Layout -/

/-- Layout is a row of blanks and comments. -/
def IsLayout (text : List Char) : Prop :=
  ∃ parts : List (List Char), parts.flatten = text ∧
    ∀ part ∈ parts, Shape.blank.Matches part ∨ Shape.comment.Matches part

namespace IsLayout

theorem nil : IsLayout [] :=
  ⟨[], rfl, nofun⟩

theorem append {text more : List Char} (h : IsLayout text) (h' : IsLayout more) :
    IsLayout (text ++ more) := by
  obtain ⟨parts, rfl, fits⟩ := h
  obtain ⟨parts', rfl, fits'⟩ := h'
  refine ⟨parts ++ parts', List.flatten_append, ?_⟩
  exact List.forall_mem_append.mpr ⟨fits, fits'⟩

theorem of_part {part : List Char} (h : Shape.blank.Matches part ∨ Shape.comment.Matches part) :
    IsLayout part :=
  ⟨[part], List.flatten_singleton, List.forall_mem_singleton.mpr h⟩

theorem blank {c : Char} (h : isBlank c = true) : IsLayout [c] :=
  of_part (Or.inl (.blank (List.cons_ne_nil _ _) (List.forall_mem_singleton.mpr h)))

theorem comment {line : List Char} (one_line : '\n' ∉ line) : IsLayout ('%' :: line) :=
  of_part (Or.inr (.comment one_line))

end IsLayout

/-! ## Gaps -/

/-- What stands before, between and behind some tokens, from one offset of a text
to another. -/
def gaps (source : List Char) (stop : Nat) : Nat → List Token → List (List Char)
  | start, [] => [source.extract start stop]
  | start, t :: ts => source.extract start t.start.offset :: gaps source stop t.stop.offset ts

section

variable {source rest : List Char} {stop : Nat}

/-- All gaps are layout if the one that has been begun is. -/
theorem Yields.isLayout_gaps {p : Place} {text : List Char} {qs : List Piece}
    (h : Yields p text qs) : ∀ {before gap : List Char} {ts : List Token},
      qs = ts.map .token → source = before ++ gap ++ text ++ rest →
      stop = (before ++ gap ++ text).length → p.offset = (before ++ gap).length → IsLayout gap →
        ∀ g ∈ gaps source stop before.length ts, IsLayout g := by
  induction h with
  | done p =>
      intro before gap ts tokens whole until_stop _ layout
      obtain rfl : ts = [] := List.map_eq_nil_iff.mp tokens.symm
      rw [gaps, whole, until_stop, List.append_nil, extract_middle]
      exact List.forall_mem_singleton.mpr layout
  | @blank p c text qs blank _ ih =>
      intro before gap ts tokens whole until_stop offset layout
      refine @ih before (gap ++ [c]) ts tokens ?_ ?_ ?_ (layout.append (.blank blank))
      · simp [whole]
      · simp [until_stop]
      · rw [Place.offset_after, offset]
        simp [Nat.add_assoc]
  | @comment p line text qs one_line _ _ ih =>
      intro before gap ts tokens whole until_stop offset layout
      refine @ih before (gap ++ '%' :: line) ts tokens ?_ ?_ ?_ (layout.append (.comment one_line))
      · simp [whole]
      · simp [until_stop]
      · rw [Place.offset_afterAll, offset]
        simp [Nat.add_assoc]
  | @solid q text qs _ _ _ ih =>
      intro before gap ts tokens whole until_stop offset layout
      cases ts with
      | nil => cases tokens
      | cons t ts =>
          obtain ⟨rfl, behind⟩ := List.cons.inj tokens
          have start : t.start.offset = (before ++ gap).length := offset
          have stopped : t.stop.offset = (before ++ gap ++ t.text).length := by
            rw [Token.stop, Place.offset_afterAll, start, ← List.length_append]
          have here : source.extract before.length t.start.offset = gap := by
            rw [whole, start, List.append_assoc (before ++ gap), extract_middle]
          rw [gaps, here, stopped, List.forall_mem_cons]
          refine ⟨layout, @ih (before ++ gap ++ t.text) [] ts behind ?_ ?_ ?_ .nil⟩
          · simp [whole, Piece.text]
          · simp [until_stop, Piece.text]
          · rw [List.append_nil, ← stopped]
            rfl

end

/-- Solid pieces stand one behind the other. -/
theorem Yields.apart {p : Place} {text : List Char} {qs : List Piece} (h : Yields p text qs) :
    qs.Pairwise fun q r => (q.start.afterAll q.text).offset ≤ r.start.offset := by
  induction h with
  | done p => exact .nil
  | blank _ _ ih => exact ih
  | comment _ _ _ ih => exact ih
  | solid _ _ behind ih =>
      refine .cons ?_ ih
      intro r hr
      obtain ⟨before, _, _, start, _⟩ := behind.exists_split r hr
      rw [start, Place.offset_afterAll _ before]
      exact Nat.le_add_right _ _

/-! ## Coverage -/

/-- The text up to the offset `stop` is covered by these tokens. -/
structure Covers (source : List Char) (stop : Nat) (ts : List Token) : Prop where
  nonempty : ∀ t ∈ ts, t.start.offset < t.stop.offset
  within : ∀ t ∈ ts, t.stop.offset ≤ stop
  apart : ts.Pairwise fun t u => t.stop.offset ≤ u.start.offset
  text : ∀ t ∈ ts, t.text = source.extract t.start.offset t.stop.offset
  gaps : ∀ gap ∈ gaps source stop 0 ts, IsLayout gap
  places : ∀ t ∈ ts, t.start.IsOf source ∧ t.stop.IsOf source

theorem covers_of_tokenize {source : List Char} {ts : List Token} (h : tokenize source = .ok ts)
    (rest : List Char) : Covers (source ++ rest) source.length ts := by
  have solid := tokenize_eq_ok_iff.mp h
  have yields := yields_solids source
  have split := tokenize_split h
  have offsets : ∀ t ∈ ts, ∃ before behind, source = before ++ t.text ++ behind ∧
      t.start.offset = before.length ∧ t.stop.offset = (before ++ t.text).length := by
    intro t ht
    obtain ⟨before, behind, whole, start, _⟩ := split t ht
    refine ⟨before, behind, whole, ?_, ?_⟩
    · rw [start, Place.offset_start_afterAll]
    · rw [Token.stop, start, ← Place.afterAll_append, Place.offset_start_afterAll]
  refine ⟨?_, ?_, ?_, ?_, ?_, ?_⟩
  · intro t ht
    obtain ⟨_, _, _, _, front⟩ := split t ht
    rw [Token.stop, Place.offset_afterAll]
    exact Nat.lt_add_of_pos_right (List.length_pos_of_ne_nil front.text_ne_nil)
  · intro t ht
    obtain ⟨before, behind, rfl, _, stop⟩ := offsets t ht
    rw [stop]
    exact (List.prefix_append _ behind).length_le
  · have apart := yields.apart
    rw [solid, List.pairwise_map] at apart
    exact apart
  · intro t ht
    obtain ⟨before, behind, rfl, start, stop⟩ := offsets t ht
    rw [start, stop, List.append_assoc _ behind, extract_middle]
  · exact @Yields.isLayout_gaps _ rest _ _ _ _ yields [] [] ts solid rfl rfl rfl .nil
  · intro t ht
    obtain ⟨⟨front, inside, start⟩, ⟨front', inside', stop⟩⟩ := tokenize_isIn h t ht
    have longer := List.prefix_append source rest
    exact ⟨Place.IsIn.isOf ⟨front, inside.trans longer, start⟩,
      Place.IsIn.isOf ⟨front', inside'.trans longer, stop⟩⟩

/-! ## Up to an unreadable character -/

/-- Readable pieces are cut off in the same way if the text ends earlier. -/
theorem Cut.truncate {mid tail : List Char} : ∀ {qs : List Piece} {p : Place},
    Cut p qs (mid ++ tail) → (∀ q ∈ qs, q.isReadable = true) → Cut p qs mid
  | [], _, _, _ => trivial
  | q :: qs, _, ⟨start, front, cut⟩, readable => by
      rw [← List.append_assoc] at front
      rw [List.forall_mem_cons] at readable
      exact ⟨start, front.truncate readable.1, cut.truncate readable.2⟩

theorem Piece.isReadable_of_unreadable? {q : Piece} (h : q.unreadable? = none) :
    q.isReadable = true := by
  cases q with
  | unreadable u => cases h
  | _ => rfl

theorem Fronts.of_unreadable {u : Unreadable} {rest : List Char}
    (h : Fronts (.unreadable u) rest) : Shape.first? (u.char :: rest) = none := by
  generalize same : Piece.unreadable u = q at h
  cases h with
  | @shaped s _ _ _ _ _ => cases s <;> cases same
  | unreadable p unfit =>
      cases same
      exact unfit

/-- Where reading fails, the text before has been read as if it ended there, and
the character that comes next begins nothing. -/
theorem tokenize_eq_error {source : List Char} {u : Unreadable} (h : tokenize source = .error u) :
    ∃ front rest ts, source = front ++ u.char :: rest ∧ u.place = Place.start.afterAll front ∧
      tokenize front = .ok ts ∧ scan front <+: scan source ∧
      Shape.first? (u.char :: rest) = none := by
  obtain ⟨before, q, after, pieces, unreadable, others⟩ :=
    List.findSome?_eq_some_iff.mp (readableTokens_eq_error_iff.mp h)
  obtain rfl : q = .unreadable u := by
    cases q <;> cases unreadable
    rfl
  have readable : ∀ q ∈ before, q.isReadable = true :=
    fun q hq => Piece.isReadable_of_unreadable? (others q hq)
  have cut := cut_scan source
  rw [pieces, cut_append] at cut
  obtain ⟨first, start, front, _⟩ := cut
  have alone : scan (Piece.allText before) = before := by
    have scanned := (@Cut.truncate [] _ _ _ first readable).scanFrom_eq
    rw [List.append_nil] at scanned
    exact scanned.trans (List.append_nil _)
  refine ⟨Piece.allText before, Piece.allText after, before.filterMap Piece.token?, ?_, start, ?_,
    ?_, ?_⟩
  · have whole := scan_text source
    rw [pieces] at whole
    rw [← whole, List.flatMap_append]
    rfl
  · rw [tokenize, alone, readableTokens_eq_ok_iff]
    exact ⟨readable, rfl⟩
  · rw [alone, pieces]
    exact List.prefix_append _ _
  · rw [List.append_nil] at front
    exact front.of_unreadable

/-- Reading a text covers it with tokens.  Where it fails, everything before the
character it fails at is covered, and no front of what is left is of any shape. -/
theorem tokens_cover_text (source : List Char) :
    (∀ ts, tokenize source = .ok ts → Covers source source.length ts) ∧
      ∀ u, tokenize source = .error u →
        u.place.IsOf source ∧ source[u.place.offset]? = some u.char ∧
        (∀ (s : Shape) (text : List Char), text <+: source.drop u.place.offset →
          ¬ s.Matches text) ∧
        ∃ ts, tokenize (source.take u.place.offset) = .ok ts ∧
          scan (source.take u.place.offset) <+: scan source ∧
          Covers source u.place.offset ts := by
  refine ⟨?_, ?_⟩
  · intro ts read
    have covers := covers_of_tokenize read []
    rwa [List.append_nil] at covers
  · intro u failed
    obtain ⟨front, rest, ts, rfl, place, read, begun, unfit⟩ := tokenize_eq_error failed
    have offset : u.place.offset = front.length := by
      rw [place, Place.offset_start_afterAll]
    refine ⟨Place.IsIn.isOf ⟨front, List.prefix_append _ _, place⟩, ?_, ?_, ts, ?_⟩
    · rw [offset, List.getElem?_append_right (Nat.le_refl _), Nat.sub_self]
      rfl
    · rw [offset, List.drop_left]
      exact Shape.first?_eq_none_iff.mp unfit
    · rw [offset, List.take_left]
      exact ⟨read, begun, covers_of_tokenize read _⟩

theorem tokens_cover_text_comment :
    Covers "A %\n:".toList 5
        [⟨⟨0, 1, 1⟩, .ident, ['A']⟩, ⟨⟨4, 2, 1⟩, .mark .colon, [':']⟩] ∧
      (⟨5, 2, 2⟩ : Place).IsOf "A %\n:$".toList ∧
      ∀ (s : Shape) (text : List Char), text <+: ['$'] → ¬ s.Matches text := by
  have fails := (tokens_cover_text "A %\n:$".toList).2 ⟨⟨5, 2, 2⟩, '$'⟩ rfl
  exact ⟨(tokens_cover_text "A %\n:".toList).1 _ rfl, fails.1, fails.2.2.1⟩

end PvsIndex
