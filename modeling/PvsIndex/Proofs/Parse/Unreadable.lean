import PvsIndex.Proofs.Parse.Recovery

/-!
# Unreadable characters

A text is read twice over: for its tokens alone, which stops at the first
character that begins nothing, and by the parser, which drops such a character,
says so and goes on.  What the parser says about its first unreadable character
is what stopped the other reading, however many tokens were dropped before
(`find?_isUnreadable`): dropping a token says something else, and no piece is
passed over in silence but blanks, comments and tokens that fit.
-/

namespace PvsIndex

/-! ## The first unreadable character -/

/-- The character, if nothing begins with it. -/
def Piece.unreadable? : Piece → Option Unreadable
  | unreadable u => some u
  | _ => none

/-- Reading for tokens alone fails at the first unreadable character. -/
theorem readableTokens_eq_error_iff {qs : List Piece} {u : Unreadable} :
    readableTokens qs = .error u ↔ qs.findSome? Piece.unreadable? = some u := by
  induction qs with
  | nil => simp [readableTokens]
  | cons q qs ih =>
      cases q with
      | blank p text => exact ih
      | comment p text => exact ih
      | unreadable v =>
          rw [readableTokens, List.findSome?_cons_of_isSome (by rfl)]
          constructor
          · intro same
            exact congrArg some (Except.error.inj same)
          · intro same
            exact congrArg Except.error (Option.some.inj same)
      | token t =>
          rw [readableTokens, List.findSome?_cons_of_isNone (by rfl), ← ih]
          cases readableTokens qs with
          | ok ts => simp [Except.map]
          | error v => exact Iff.rfl

/-! ## What is said about it -/

/-- What the parser says about an unreadable character. -/
def Unreadable.diagnostic (u : Unreadable) : Diagnostic :=
  .syntaxError u.place.line (u.place.column - 1) [u.char]
    ("token recognition error at: '" ++ String.ofList [u.char] ++ "'")

namespace Diagnostic

/-- Is it about an unreadable character? -/
def isUnreadable (d : Diagnostic) : Bool :=
  "token recognition error".toList.isPrefixOf d.message.toList

theorem isUnreadable_diagnostic (u : Unreadable) : u.diagnostic.isUnreadable = true := by
  have message : u.diagnostic.message =
      "token recognition error at: '" ++ String.ofList [u.char] ++ "'" := rfl
  rw [isUnreadable, message, String.toList_append, String.toList_append]
  rfl

/-- What does not fit is not unreadable. -/
theorem isUnreadable_of_isMismatch {d : Diagnostic} (h : d.isMismatch = true) :
    d.isUnreadable = false := by
  rw [isMismatch, List.isPrefixOf_iff_prefix] at h
  by_contra both
  rw [Bool.not_eq_false, isUnreadable, List.isPrefixOf_iff_prefix] at both
  obtain ⟨_, message⟩ := h
  obtain ⟨_, other⟩ := both
  rw [← message] at other
  exact absurd (List.cons.inj other).1 (by decide)

end Diagnostic

/-- Only an unreadable piece makes the parser say that it is. -/
theorem Run.find?_step (s : Stack) (q : Piece) :
    (step s q).1.diagnostic?.toList.find? Diagnostic.isUnreadable =
      q.unreadable?.map Unreadable.diagnostic := by
  have dropped : ∀ t expected,
      (Event.dropped t expected).diagnostic?.toList.find? Diagnostic.isUnreadable = none := by
    intro t expected
    have said := Event.reports_of_diagnostic? (e := .dropped t expected) rfl
    have other := Diagnostic.isUnreadable_of_isMismatch (Diagnostic.PointsAt.isMismatch said)
    exact List.find?_cons_of_neg (by rw [other]; exact Bool.false_ne_true)
  cases q with
  | blank p text => rfl
  | comment p text => rfl
  | unreadable u => exact List.find?_cons_of_pos (Diagnostic.isUnreadable_diagnostic u)
  | token t =>
      rw [step]
      split
      · rfl
      · exact dropped t _
      · exact dropped t _
      · exact dropped t _

/-- Going on after faults does not change which unreadable character is the first. -/
theorem Run.find?_steps (s : Stack) (qs : List Piece) :
    ((steps s qs).1.filterMap Event.diagnostic?).find? Diagnostic.isUnreadable =
      (qs.findSome? Piece.unreadable?).map Unreadable.diagnostic := by
  induction qs generalizing s with
  | nil => rfl
  | cons q qs ih =>
      have here := find?_step s q
      have split : (steps s (q :: qs)).1.filterMap Event.diagnostic? =
          (step s q).1.diagnostic?.toList ++
            (steps (step s q).2 qs).1.filterMap Event.diagnostic? := by
        rw [steps, List.filterMap_cons]
        cases (step s q).1.diagnostic? <;> rfl
      rw [split, List.find?_append, here, ih, List.findSome?_cons]
      cases q.unreadable? <;> rfl

theorem find?_isUnreadable (source : List Char) :
    (parse source).diagnostics.find? Diagnostic.isUnreadable =
      ((scan source).findSome? Piece.unreadable?).map Unreadable.diagnostic := by
  obtain ⟨stack, _, _, ending⟩ := Run.recovers source
  have final := Run.finish_diagnostic stack (met (Run.ofSource source).events).getLast?
  rw [← ending] at final
  -- the end of a text is never called unreadable
  have quiet : ((Run.ofSource source).ending.fault?.map Fault.diagnostic).toList.find?
      Diagnostic.isUnreadable = none := by
    rcases final with ⟨_, _, silent⟩ | ⟨d, one, atEnd, _⟩
    · rw [silent]
      rfl
    · have other := Diagnostic.isUnreadable_of_isMismatch (Diagnostic.isMismatch_of_isAtEnd atEnd)
      rw [one, List.find?_cons_of_neg (by rw [other]; exact Bool.false_ne_true)]
      rfl
  rw [parse_diagnostics, Run.diagnostics_eq, List.find?_append, quiet, Option.or_none]
  exact Run.find?_steps [] (scan source)

/-! ## Two readings of a text -/

/-- Reading for tokens and parsing agree on what can be read.  The one fails
exactly if the other calls something unreadable, and what is called so first is
where the one fails; and a text that is accepted has the tokens of its stream. -/
theorem readings_agree (source : List Char) :
    ((∃ u, tokenize source = .error u) ↔
        ∃ d ∈ (parse source).diagnostics, d.isUnreadable = true) ∧
      (∀ u, tokenize source = .error u →
        (parse source).diagnostics.find? Diagnostic.isUnreadable =
          some (.syntaxError u.place.line (u.place.column - 1) [u.char]
            ("token recognition error at: '" ++ String.ofList [u.char] ++ "'"))) ∧
      ((parse source).diagnostics = [] →
        ∃ root ts, parse source = .tree root ts ∧ tokenize source = .ok ts.tokens) := by
  have first := find?_isUnreadable source
  refine ⟨?_, ?_, ?_⟩
  · rw [← List.find?_isSome, first, Option.isSome_map, Option.isSome_iff_exists]
    simp only [tokenize, readableTokens_eq_error_iff]
  · intro u failed
    rw [first, readableTokens_eq_error_iff.mp failed]
    rfl
  · intro clean
    obtain ⟨root, ts, parsed⟩ := parse_diagnostics_eq_nil_iff.mp clean
    exact ⟨root, ts, parsed, (parse_eq_tree_iff.mp parsed).2.1⟩

theorem readings_agree_dollar :
    (parse "T T $ $".toList).diagnostics.find? Diagnostic.isUnreadable =
      some (.syntaxError 1 4 ['$'] "token recognition error at: '$'") :=
  (readings_agree "T T $ $".toList).2.1 ⟨⟨4, 1, 5⟩, '$'⟩ rfl

end PvsIndex
