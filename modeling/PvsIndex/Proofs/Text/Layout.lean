import PvsIndex.Proofs.Declaration.Entries
import PvsIndex.Proofs.Declaration.Relabel

/-!
# Layout

What stands between the tokens of a text is its layout.  Any other layout would
do as well, as long as there is some between any two tokens: a token is read as
the same token when nothing is behind it, and so it is when a separator is
(`Fronts.gap`).  Without a separator this fails, since two tokens could be read
as one.

A text in another layout has the same words, and texts with the same words have
trees with the same outline, faults with the same messages and indexes with the
same names.
-/

namespace PvsIndex

/-! ## Texts with the same words -/

section Words

variable {source source' : List Char} {ts us : List Token}

/-- The token at the start of a text, wherever it was. -/
def Token.unplaced : Token → Token :=
  Token.carry fun _ => .start

theorem Token.map_unplaced_of_words (same : us.map word = ts.map word) :
    us.map unplaced = ts.map unplaced := by
  have rebuilt := congrArg (List.map fun (terminal, text) => Token.mk .start terminal text) same
  rw [List.map_map, List.map_map] at rebuilt
  exact rebuilt

/-- Messages do not depend on places. -/
theorem messages_parse_of_words (tokens : tokenize source = .ok ts)
    (tokens' : tokenize source' = .ok us) (same : us.map Token.word = ts.map Token.word) :
    (parse source').diagnostics.map Diagnostic.message =
      (parse source).diagnostics.map Diagnostic.message := by
  have unplaced : ∀ (xs : List Token),
      (Run.ofPieces (xs.map .token)).diagnostics.map Diagnostic.message =
        (Run.ofPieces ((xs.map Token.unplaced).map .token)).diagnostics.map Diagnostic.message := by
    intro xs
    have moved := Run.messages_carry (fun _ => .start) (Run.ofPieces (xs.map .token))
    rw [← Run.ofPieces_carry, Piece.map_carry_token] at moved
    exact moved.symm
  rw [parse_diagnostics_eq_solids, parse_diagnostics_eq_solids, tokenize_eq_ok_iff.mp tokens,
    tokenize_eq_ok_iff.mp tokens', unplaced us, unplaced ts, Token.map_unplaced_of_words same]

theorem textsOf_unplaced (kind : DeclarationKind) (xs : List Token) :
    Index.textsOf kind (declared [] xs) =
      Index.textsOf kind (declared [] (xs.map Token.unplaced)) := by
  rw [Token.unplaced, declared_carry, Index.textsOf, Index.textsOf, List.filter_map, List.map_map]
  rfl

/-- The names of an index do not depend on places. -/
theorem identifiers_of_words (same : us.map Token.word = ts.map Token.word)
    (kind : DeclarationKind) :
    ((Index.ofDeclared source' (declared [] us)).table kind).identifiers =
      ((Index.ofDeclared source (declared [] ts)).table kind).identifiers := by
  rw [Index.identifiers_ofDeclared, Index.identifiers_ofDeclared, textsOf_unplaced kind us,
    textsOf_unplaced kind ts, Token.map_unplaced_of_words same]

end Words

/-! ## Separators -/

/-- Blanks and comments, each comment with its line end. -/
inductive IsSeparator : List Char → Prop where
  | nil : IsSeparator []
  | blank {c : Char} {rest : List Char} :
      isBlank c = true → IsSeparator rest → IsSeparator (c :: rest)
  | comment {line rest : List Char} :
      '\n' ∉ line → IsSeparator rest → IsSeparator ('%' :: line ++ '\n' :: rest)

theorem IsSeparator.head {c : Char} {rest : List Char} (h : IsSeparator (c :: rest)) :
    Shape.isGap c = true := by
  cases h with
  | blank blank _ => rw [Shape.isGap, blank, Bool.true_or]
  | comment _ _ => decide

/-- A separator is passed over. -/
theorem Yields.separator {w rest : List Char} {qs : List Piece} (h : IsSeparator w) {p : Place}
    (behind : Yields (p.afterAll w) rest qs) : Yields p (w ++ rest) qs := by
  induction h generalizing p with
  | nil => exact behind
  | blank blank _ ih => exact .blank blank (ih behind)
  | @comment line w one_line _ ih =>
      rw [Place.afterAll_append] at behind
      have line_end : Yields (p.afterAll ('%' :: line)) ('\n' :: (w ++ rest)) qs :=
        .blank (by decide) (ih behind)
      have whole := Yields.comment one_line (by simp) line_end
      simpa using whole

/-! ## Another layout -/

/-- Tokens in a row, each with the separator behind it, after a first separator. -/
def laidOut (before : List Char) (row : List (Token × List Char)) : List Char :=
  before ++ row.flatMap fun (t, behind) => t.text ++ behind

section Row

variable {row : List (Token × List Char)} (separators : ∀ x ∈ row, IsSeparator x.2)
  (apart : ∀ x ∈ row.dropLast, x.2 ≠ [])

include separators apart

/-- Tokens that can be read with nothing behind them can be read in a row. -/
theorem yields_laidOut (alone : ∀ x ∈ row, Fronts (.token x.1) []) {before : List Char}
    (first : IsSeparator before) (p : Place) :
    ∃ us : List Token, Yields p (laidOut before row) (us.map .token) ∧
      us.map Token.word = (row.map Prod.fst).map Token.word := by
  induction row generalizing before p with
  | nil =>
      refine ⟨[], ?_, rfl⟩
      exact .separator first (.done _)
  | cons x row ih =>
      obtain ⟨t, behind⟩ := x
      rw [List.forall_mem_cons] at separators alone
      have apart_rest : ∀ x ∈ row.dropLast, x.2 ≠ [] := by
        intro x hx
        cases row with
        | nil => cases hx
        | cons y row => exact apart x (List.mem_cons_of_mem _ hx)
      obtain ⟨us, rest, words⟩ := ih separators.2 apart_rest alone.2 separators.1
        ((p.afterAll before).afterAll t.text)
      have front : Fronts (.token t) (laidOut behind row) := by
        cases text : laidOut behind row with
        | nil => exact alone.1
        | cons c cs =>
            -- a token with nothing behind it is the last one
            have nonempty : behind ≠ [] := by
              rintro rfl
              cases row with
              | nil => cases text
              | cons y row => exact apart (t, []) List.mem_cons_self rfl
            obtain ⟨d, ds, rfl⟩ := List.exists_cons_of_ne_nil nonempty
            obtain rfl : d = c := (List.cons.inj text).1
            exact alone.1.gap separators.1.head cs
      have here := Yields.solid_carry (fun _ => p.afterAll before) rfl front rest
      refine ⟨t.carry (fun _ => p.afterAll before) :: us, .separator first ?_, ?_⟩
      · rw [List.flatMap_cons, List.append_assoc]
        exact here
      · rw [List.map_cons, words]
        rfl

theorem tokenize_laidOut {source : List Char} (tokens : tokenize source = .ok (row.map Prod.fst))
    {before : List Char} (first : IsSeparator before) :
    ∃ us, tokenize (laidOut before row) = .ok us ∧
      us.map Token.word = (row.map Prod.fst).map Token.word := by
  have alone : ∀ x ∈ row, Fronts (.token x.1) [] := by
    intro x hx
    obtain ⟨_, behind, _, _, front⟩ := tokenize_split tokens x.1 (List.mem_map_of_mem hx)
    exact @Fronts.truncate _ [] behind front rfl
  obtain ⟨us, yields, words⟩ := yields_laidOut separators apart alone first .start
  exact ⟨us, tokenize_eq_ok_iff.mpr yields.solids_eq, words⟩

end Row

/-- Layout does not matter.  The tokens of a text with other separators between
them have the same words; with them the text is accepted or not as before, and
its tree has the same outline, its faults the same messages, and its index the
same names. -/
theorem layout_irrelevant (source before : List Char) (row : List (Token × List Char))
    (tokens : tokenize source = .ok (row.map Prod.fst)) (first : IsSeparator before)
    (separators : ∀ x ∈ row, IsSeparator x.2) (apart : ∀ x ∈ row.dropLast, x.2 ≠ []) :
    (∃ us, tokenize (laidOut before row) = .ok us ∧
        us.map Token.word = (row.map Prod.fst).map Token.word) ∧
      ((parse (laidOut before row)).diagnostics = [] ↔ (parse source).diagnostics = []) ∧
      (parse (laidOut before row)).outline? = (parse source).outline? ∧
      (parse (laidOut before row)).diagnostics.map Diagnostic.message =
        (parse source).diagnostics.map Diagnostic.message ∧
      ∀ reportDuplicates, ∃ report report',
        Report.ofSource reportDuplicates source = .ok report ∧
        Report.ofSource reportDuplicates (laidOut before row) = .ok report' ∧
        (report'.index?.map fun index kind => (index.table kind).identifiers) =
          report.index?.map fun index kind => (index.table kind).identifiers := by
  obtain ⟨us, tokens', words⟩ := tokenize_laidOut separators apart tokens first
  have messages := messages_parse_of_words tokens tokens' words
  have outline := outline?_parse_of_terminals tokens tokens' (Token.terminals_of_words words)
  refine ⟨⟨us, tokens', words⟩, ?_, outline, messages, ?_⟩
  · rw [← List.map_eq_nil_iff (f := Diagnostic.message), messages, List.map_eq_nil_iff]
  · refine Report.index?_of_outline? _ _ outline ?_
    intro xs ys readable readable' _
    obtain rfl : row.map Prod.fst = xs := Except.ok.inj (tokens.symm.trans readable)
    obtain rfl : us = ys := Except.ok.inj (tokens'.symm.trans readable')
    funext kind
    exact identifiers_of_words words kind

/-- The small theory with a comment behind each of its tokens. -/
def commentedTheory : List Char :=
  "T%\n:%\nTHEORY%\nBEGIN%\nm%\n,%\nn%\n:%\nTYPE%\nc%\n:%\nAXIOM%\np%\nEND%\nT%\n".toList

theorem layout_irrelevant_commentedTheory : (parse commentedTheory).diagnostics = [] := by
  let row := smallTheoryTokens.map fun t => (t, ['%', '\n'])
  have tokens : tokenize smallTheory = .ok (row.map Prod.fst) := tokenize_smallTheory
  have separator : IsSeparator ['%', '\n'] := @IsSeparator.comment [] [] nofun .nil
  have behind : ∀ x ∈ row, x.2 = ['%', '\n'] := by
    intro x hx
    obtain ⟨_, _, rfl⟩ := List.mem_map.mp hx
    rfl
  have separators : ∀ x ∈ row, IsSeparator x.2 := fun x hx => behind x hx ▸ separator
  have apart : ∀ x ∈ row.dropLast, x.2 ≠ [] := by
    intro x hx
    rw [behind x (List.dropLast_subset row hx)]
    exact List.cons_ne_nil _ _
  have spread := layout_irrelevant smallTheory [] row tokens .nil separators apart
  exact spread.2.1.mpr diagnostics_smallTheory

end PvsIndex
