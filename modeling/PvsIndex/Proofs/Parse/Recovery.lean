import Mathlib.Data.List.Forall2
import PvsIndex.Proofs.Parse.Completeness
import PvsIndex.Proofs.Token.Context

/-!
# Reading on after an error

`Recovers s p text events s'` is the account of a run as a judgement: from the
place `p` on, a stack `s` reads the text, the events say what happens to each
piece of it, and `s'` is the stack at the end.  There is one rule for each
thing that can happen: a blank and a comment pass by, a token is read or is
dropped, a character that begins nothing is dropped.  Since a rule takes a
piece off the text and puts one event into the account, no character is passed
over and none is met twice.

`Stack.Stands s w` is the invariant: the stack is linked and spells the tokens
`w`.  Reading a token adds it to them; dropping one leaves them as they are,
whatever rules were recognised before the refusal.  So the stack always stands
for the tokens that were kept (`Recovers.stands`), and a run never gets stuck,
which is why the rules have no case for it (`recovers_steps`).

The diagnostics of a text are the dropped things, in order, and perhaps its
end.
-/

namespace PvsIndex

/-! ## Events -/

namespace Event

/-- The piece that an event is about. -/
def piece : Event → Piece
  | passed p => p
  | taken t => .token t
  | dropped t _ => .token t
  | unreadable u => .unreadable u

/-- The token that was read. -/
def kept? : Event → Option Token
  | taken t => some t
  | _ => none

/-- Was something dropped? -/
def isDropped : Event → Bool
  | dropped .. => true
  | unreadable _ => true
  | _ => false

/-- What is said about an event. -/
def diagnostic? (e : Event) : Option Diagnostic :=
  e.fault?.map Fault.diagnostic

end Event

/-- The tokens that were read, in order. -/
def kept (events : List Event) : List Token :=
  events.filterMap Event.kept?

/-- The tokens that were met, read or dropped, in order. -/
def met (events : List Event) : List Token :=
  events.filterMap fun e => e.piece.token?

/-! ## The account of a run -/

/-- From the place `p` on, the stack `s` reads a text, and becomes `s'`. -/
inductive Recovers : Stack → Place → List Char → List Event → Stack → Prop where
  | done (s : Stack) (p : Place) : Recovers s p [] [] s
  | blank {s s' : Stack} {p : Place} {text rest : List Char} {events : List Event} :
      Fronts (.blank p text) rest → (∀ c ∈ text, isBlank c = true) →
        Recovers s (p.afterAll text) rest events s' →
          Recovers s p (text ++ rest) (.passed (.blank p text) :: events) s'
  | comment {s s' : Stack} {p : Place} {line rest : List Char} {events : List Event} :
      Fronts (.comment p ('%' :: line)) rest → '\n' ∉ line →
        Recovers s (p.afterAll ('%' :: line)) rest events s' →
          Recovers s p ('%' :: line ++ rest) (.passed (.comment p ('%' :: line)) :: events) s'
  | taken {s s' s'' : Stack} {t : Token} {rest : List Char} {events : List Event} :
      Fronts (.token t) rest → s.feed (.terminal t.terminal) [.leaf t] = .taken s' →
        Recovers s' t.stop rest events s'' →
          Recovers s t.start (t.text ++ rest) (.taken t :: events) s''
  | dropped {s s' s'' : Stack} {t : Token} {rest : List Char} {events : List Event} :
      Fronts (.token t) rest → s.feed (.terminal t.terminal) [.leaf t] = .refused s' →
        Recovers s' t.stop rest events s'' →
          Recovers s t.start (t.text ++ rest) (.dropped t s'.state.expected :: events) s''
  | unreadable {s s' : Stack} {p : Place} {c : Char} {rest : List Char} {events : List Event} :
      Fronts (.unreadable ⟨p, c⟩) rest → Recovers s (p.after c) rest events s' →
        Recovers s p (c :: rest) (.unreadable ⟨p, c⟩ :: events) s'

/-! ## What a stack stands for -/

namespace Stack

/-- The stack is linked, and spells these tokens. -/
structure Stands (s : Stack) (w : List Token) : Prop where
  linked : s.Linked
  spells : s.Spells w

theorem stands_nil : Stands [] [] := ⟨trivial, .nil⟩

/-- A token is read, or it is refused and leaves the tokens as they are. -/
theorem Stands.feed_token {s : Stack} {w : List Token} (h : s.Stands w) (t : Token) :
    (∃ s', s.feed (.terminal t.terminal) [.leaf t] = .taken s' ∧ s'.Stands (w ++ [t])) ∨
      ∃ s', s.feed (.terminal t.terminal) [.leaf t] = .refused s' ∧ s'.Stands w := by
  have leaf : ∀ u, Lookahead.terminal t.terminal = .terminal u →
      Derives (.terminal u) [t] [.leaf t] := by
    rintro u ⟨⟩
    exact .token t
  have sound := Linked.feed_sound leaf s h.linked h.spells
  cases answer : s.feed (.terminal t.terminal) [.leaf t] with
  | taken s' =>
      rw [answer] at sound
      exact Or.inl ⟨s', rfl, sound.1, sound.2.1⟩
  | refused s' =>
      rw [answer] at sound
      exact Or.inr ⟨s', rfl, sound.1, sound.2.1⟩
  | accepted trees =>
      rw [answer] at sound
      cases sound.1
  | stuck =>
      rw [answer] at sound
      exact sound.elim

theorem Stands.taken {s s' : Stack} {w : List Token} {t : Token} (h : s.Stands w)
    (answer : s.feed (.terminal t.terminal) [.leaf t] = .taken s') : s'.Stands (w ++ [t]) := by
  rcases h.feed_token t with ⟨s₁, same, stands⟩ | ⟨s₁, same, _⟩
  · obtain rfl : s' = s₁ := Answer.taken.inj (answer.symm.trans same)
    exact stands
  · rw [answer] at same
    cases same

theorem Stands.refused {s s' : Stack} {w : List Token} {t : Token} (h : s.Stands w)
    (answer : s.feed (.terminal t.terminal) [.leaf t] = .refused s') : s'.Stands w := by
  rcases h.feed_token t with ⟨s₁, same, _⟩ | ⟨s₁, same, stands⟩
  · rw [answer] at same
    cases same
  · obtain rfl : s' = s₁ := Answer.refused.inj (answer.symm.trans same)
    exact stands

end Stack

/-- After a run the stack stands for the tokens that were read. -/
theorem Recovers.stands {s s' : Stack} {p : Place} {text : List Char} {events : List Event}
    (run : Recovers s p text events s') : ∀ {w : List Token}, s.Stands w →
      s'.Stands (w ++ kept events) := by
  induction run with
  | done s p =>
      intro w h
      rwa [kept, List.filterMap_nil, List.append_nil]
  | blank _ _ _ ih => exact ih
  | comment _ _ _ ih => exact ih
  | taken _ answer _ ih =>
      intro w h
      have rest := ih (h.taken answer)
      rwa [List.append_assoc] at rest
  | dropped _ answer _ ih => exact fun h => ih (h.refused answer)
  | unreadable _ _ ih => exact ih

/-- Reading the pieces of a text is a run over the text. -/
theorem recovers_steps : ∀ {qs : List Piece} {p : Place} {s : Stack} {w : List Token},
    Cut p qs [] → s.Stands w →
      Recovers s p (Piece.allText qs) (Run.steps s qs).1 (Run.steps s qs).2
  | [], p, s, _, _, _ => .done s p
  | .blank _ text :: qs, _, s, w, ⟨rfl, front, cut⟩, h => by
      rw [List.append_nil] at front
      exact .blank front front.all_blank (recovers_steps cut h)
  | .comment _ text :: qs, _, s, w, ⟨rfl, front, cut⟩, h => by
      rw [List.append_nil] at front
      obtain ⟨line, rfl, one_line⟩ := front.of_comment
      exact .comment front one_line (recovers_steps cut h)
  | .unreadable ⟨_, c⟩ :: qs, _, s, w, ⟨rfl, front, cut⟩, h => by
      rw [List.append_nil] at front
      exact .unreadable front (recovers_steps cut h)
  | .token t :: qs, _, s, w, ⟨rfl, front, cut⟩, h => by
      rw [List.append_nil] at front
      rcases h.feed_token t with ⟨s', answer, stands⟩ | ⟨s', answer, stands⟩
      · simp only [Run.steps, Run.step, answer]
        exact .taken front answer (recovers_steps cut stands)
      · simp only [Run.steps, Run.step, answer]
        exact .dropped front answer (recovers_steps cut stands)

/-- The events of a run are about the pieces of the text, one about each. -/
theorem Run.map_piece_steps (s : Stack) (qs : List Piece) :
    (Run.steps s qs).1.map Event.piece = qs := by
  induction qs generalizing s with
  | nil => rfl
  | cons q qs ih =>
      have here : (Run.step s q).1.piece = q := by
        cases q with
        | token t =>
            simp only [Run.step]
            cases s.feed (.terminal t.terminal) [.leaf t] <;> rfl
        | _ => rfl
      rw [Run.steps, List.map_cons, here, ih]

theorem met_steps (s : Stack) (qs : List Piece) :
    met (Run.steps s qs).1 = qs.filterMap Piece.token? := by
  conv_rhs => rw [← Run.map_piece_steps s qs, List.filterMap_map]
  rfl

/-- Each event is about something further on in the text. -/
theorem Recovers.sorted {s s' : Stack} {p : Place} {text : List Char} {events : List Event}
    (run : Recovers s p text events s') :
    (∀ e ∈ events, e.piece.start = p ∨ p.Before e.piece.start) ∧
      events.Pairwise fun e e' => e.piece.start.Before e'.piece.start := by
  -- one piece that starts at `p`, and then everything behind it
  have step : ∀ {p : Place} {e : Event} {events : List Event}, e.piece.start = p →
      e.piece.text ≠ [] →
      ((∀ e' ∈ events, e'.piece.start = p.afterAll e.piece.text ∨
          (p.afterAll e.piece.text).Before e'.piece.start) ∧
        events.Pairwise fun e e' => e.piece.start.Before e'.piece.start) →
      (∀ e' ∈ e :: events, e'.piece.start = p ∨ p.Before e'.piece.start) ∧
        (e :: events).Pairwise fun e e' => e.piece.start.Before e'.piece.start := by
    rintro p e events rfl nonempty ⟨behind, sorted⟩
    have further : ∀ e' ∈ events, e.piece.start.Before e'.piece.start := by
      intro e' he'
      have past := e.piece.start.before_afterAll nonempty
      rcases behind e' he' with same | later
      · rwa [same]
      · exact past.trans later
    refine ⟨?_, List.pairwise_cons.mpr ⟨further, sorted⟩⟩
    intro e' he'
    rcases List.mem_cons.mp he' with rfl | he'
    · exact Or.inl rfl
    · exact Or.inr (further e' he')
  induction run with
  | done => exact ⟨nofun, .nil⟩
  | blank front _ _ ih => exact step rfl front.text_ne_nil ih
  | comment front _ _ ih => exact step rfl front.text_ne_nil ih
  | taken front _ _ ih => exact step rfl front.text_ne_nil ih
  | dropped front _ _ ih => exact step rfl front.text_ne_nil ih
  | unreadable front _ ih => exact step rfl front.text_ne_nil ih

/-- Every token that is met stands at the front of what is left. -/
theorem Recovers.fronts {s s' : Stack} {p : Place} {text : List Char} {events : List Event}
    (run : Recovers s p text events s') : ∀ t ∈ met events, ∃ rest, Fronts (.token t) rest := by
  induction run with
  | done => nofun
  | blank _ _ _ ih => exact ih
  | comment _ _ _ ih => exact ih
  | taken front _ _ ih =>
      intro u hu
      rcases List.mem_cons.mp hu with rfl | hu
      · exact ⟨_, front⟩
      · exact ih u hu
  | dropped front _ _ ih =>
      intro u hu
      rcases List.mem_cons.mp hu with rfl | hu
      · exact ⟨_, front⟩
      · exact ih u hu
  | unreadable _ _ ih => exact ih

/-! ## Wording -/

/-- A place as it is shown in a report. -/
def Place.position (p : Place) : Position :=
  ⟨p.line, p.column - 1⟩

/-- One position is on an earlier line, or on the same line at an earlier character. -/
def Position.Before (p q : Position) : Prop :=
  p.line < q.line ∨ p.line = q.line ∧ p.character < q.character

theorem Place.Before.position {p q : Place} (h : p.Before q) : p.position.Before q.position := by
  unfold Place.Before at h
  unfold Position.Before Place.position
  simp only
  omega

theorem Position.Before.ne {p q : Position} (h : p.Before q) : p ≠ q := by
  rintro rfl
  unfold Before at h
  omega

namespace Diagnostic

/-- Is it about something that does not fit? -/
def isMismatch (d : Diagnostic) : Bool :=
  "mismatched input ".toList.isPrefixOf d.message.toList

/-- Is it about the end of the text, which came too early? -/
def isAtEnd (d : Diagnostic) : Bool :=
  "mismatched input '<EOF>'".toList.isPrefixOf d.message.toList

/-- It says where a token stands, and that it does not fit. -/
structure PointsAt (d : Diagnostic) (t : Token) : Prop where
  start : d.range.start = t.start.position
  message : "mismatched input '".toList ++ t.text ++ ['\''] <+: d.message.toList

/-- It says where something was dropped, and what. -/
def Reports (d : Diagnostic) : Event → Prop
  | .dropped t _ => d.PointsAt t
  | .unreadable u =>
    d.range.start = u.place.position ∧
      d.message = "token recognition error at: '" ++ String.ofList [u.char] ++ "'"
  | _ => False

end Diagnostic

/-- Where the end of a text is reported: past its last token. -/
def endPosition : Option Token → Position
  | some t => t.stop.position
  | none => ⟨1, 0⟩

/-- A mismatch begins with what did not fit. -/
theorem Mismatch.shown_prefix_message {m : Mismatch} {text : List Char}
    (shown : m.shownText = "'" ++ String.ofList text ++ "'") :
    "mismatched input '".toList ++ text ++ ['\''] <+: m.message.toList := by
  have begins : "mismatched input ".toList ++ m.shownText.toList <+: m.message.toList := by
    unfold message
    simp only
    split
    · simp only [String.toList_append, List.prefix_refl]
    · rw [String.toList_append, String.toList_append, String.toList_append, String.toList_append,
        List.append_assoc, List.append_assoc, List.append_assoc, ← List.append_assoc]
      exact List.prefix_append _ _
  have same : "mismatched input ".toList ++ m.shownText.toList =
      "mismatched input '".toList ++ text ++ ['\''] := by
    rw [shown, String.toList_append, String.toList_append, String.toList_ofList]
    simp
  rwa [same] at begins

theorem Event.reports_of_diagnostic? {e : Event} {d : Diagnostic} (h : e.diagnostic? = some d) :
    d.Reports e := by
  cases e with
  | passed p => cases h
  | taken t => cases h
  | unreadable u =>
      cases h
      exact ⟨rfl, rfl⟩
  | dropped t expected =>
      obtain rfl := Option.some.inj h
      exact ⟨rfl, Mismatch.shown_prefix_message rfl⟩

theorem Event.isSome_diagnostic? (e : Event) : e.diagnostic?.isSome = e.isDropped := by
  cases e <;> rfl

/-- What is said about the end of a text. -/
theorem Ending.diagnostic_of_refused {last : Option Token} {expected : List Lookahead} :
    ∃ d, ((Ending.refused last expected).fault?.map Fault.diagnostic) = some d ∧
      d.isAtEnd = true ∧ d.range.start = endPosition last := by
  refine ⟨_, rfl, ?_, ?_⟩
  · rw [Diagnostic.isAtEnd, List.isPrefixOf_iff_prefix]
    exact @Mismatch.shown_prefix_message _ "<EOF>".toList rfl
  · cases last <;> rfl

/-- No token reads like the end of a text. -/
theorem Diagnostic.PointsAt.not_isAtEnd {d : Diagnostic} {t : Token} (h : d.PointsAt t)
    {rest : List Char} (front : Fronts (.token t) rest) : d.isAtEnd = false := by
  by_contra atEnd
  have other : "mismatched input '".toList ++ "<EOF>'".toList <+: d.message.toList := by
    rw [Bool.not_eq_false, isAtEnd, List.isPrefixOf_iff_prefix] at atEnd
    simpa using atEnd
  have here := h.message
  rw [List.append_assoc] at here
  have alike : t.text ++ ['\''] <+: "<EOF>'".toList ∨ "<EOF>'".toList <+: t.text ++ ['\''] := by
    rcases List.prefix_or_prefix_of_prefix here other with first | first
    · exact Or.inl ((List.prefix_append_right_inj _).mp first)
    · exact Or.inr ((List.prefix_append_right_inj _).mp first)
  cases text : t.text with
  | nil => exact front.text_ne_nil text
  | cons c cs =>
      rw [text] at alike
      obtain rfl : c = '<' := by
        rcases alike with first | first
        · exact (List.cons_prefix_cons.mp first).1
        · exact (List.cons_prefix_cons.mp first).1.symm
      have apart : ∀ cs ∈ ["".toList, "=".toList, "=>".toList],
          ¬ ('<' :: cs ++ ['\''] <+: "<EOF>'".toList ∨ "<EOF>'".toList <+: '<' :: cs ++ ['\'']) := by
        decide
      exact apart cs (front.text_of_less text) alike

theorem Diagnostic.PointsAt.isMismatch {d : Diagnostic} {t : Token} (h : d.PointsAt t) :
    d.isMismatch = true := by
  rw [Diagnostic.isMismatch, List.isPrefixOf_iff_prefix]
  refine List.IsPrefix.trans ?_ h.message
  simp

theorem Diagnostic.isMismatch_of_isAtEnd {d : Diagnostic} (h : d.isAtEnd = true) :
    d.isMismatch = true := by
  rw [isAtEnd, List.isPrefixOf_iff_prefix] at h
  rw [isMismatch, List.isPrefixOf_iff_prefix]
  exact List.IsPrefix.trans (by decide) h

/-- An unreadable character is neither a mismatch nor the end. -/
theorem Diagnostic.isMismatch_of_unreadable {d : Diagnostic} {u : Unreadable}
    (h : d.Reports (.unreadable u)) : d.isMismatch = false := by
  rw [isMismatch, h.2, String.toList_append, String.toList_append]
  rfl

/-! ## The diagnostics of a text -/

theorem Run.diagnostics_eq (r : Run) :
    r.diagnostics =
      r.events.filterMap Event.diagnostic? ++ (r.ending.fault?.map Fault.diagnostic).toList := by
  rw [diagnostics_eq_map, faults, List.map_append, List.map_filterMap, Option.toList_map]
  rfl

/-- A text is read from its first place to its last, and then its end is met. -/
theorem Run.recovers (source : List Char) :
    ∃ stack, Recovers [] .start source (ofSource source).events stack ∧
      stack.Stands (kept (ofSource source).events) ∧
      (ofSource source).ending = finish stack (met (ofSource source).events).getLast? := by
  have run := recovers_steps (cut_scan source) Stack.stands_nil
  rw [Piece.allText, scan_text] at run
  refine ⟨_, run, run.stands Stack.stands_nil, ?_⟩
  rw [show (ofSource source).events = (steps [] (scan source)).1 from rfl, met_steps]
  rfl

theorem Run.finish_cases (s : Stack) (last : Option Token) :
    (∃ trees, finish s last = .accepted trees) ∨ ∃ expected, finish s last = .refused last expected := by
  unfold finish
  split
  · exact Or.inl ⟨_, rfl⟩
  · exact Or.inr ⟨_, rfl⟩
  · exact Or.inr ⟨_, rfl⟩
  · exact Or.inr ⟨_, rfl⟩

/-- Nothing is said about an end that is accepted, and one thing about an end
that is not. -/
theorem Run.finish_diagnostic (s : Stack) (last : Option Token) :
    (∃ trees, finish s last = .accepted trees ∧
        ((finish s last).fault?.map Fault.diagnostic).toList = []) ∨
      ∃ d, ((finish s last).fault?.map Fault.diagnostic).toList = [d] ∧ d.isAtEnd = true ∧
        d.range.start = endPosition last := by
  rcases finish_cases s last with ⟨trees, accepted⟩ | ⟨expected, refused⟩
  · exact Or.inl ⟨trees, accepted, by rw [accepted]; rfl⟩
  · obtain ⟨d, said, atEnd, start⟩ := @Ending.diagnostic_of_refused last expected
    exact Or.inr ⟨d, by rw [refused, said]; rfl, atEnd, start⟩

/-- What is said about events is said in their order, about what was dropped. -/
theorem forall₂_reports (events : List Event) :
    List.Forall₂ (fun e d => Diagnostic.Reports d e) (events.filter Event.isDropped)
      (events.filterMap Event.diagnostic?) := by
  induction events with
  | nil => exact .nil
  | cons e events ih =>
      cases said : e.diagnostic? with
      | none =>
          have kept : e.isDropped = false := by rw [← e.isSome_diagnostic?, said]; rfl
          rw [List.filter_cons_of_neg (by simp [kept]), List.filterMap_cons_none said]
          exact ih
      | some d =>
          have dropped : e.isDropped = true := by rw [← e.isSome_diagnostic?, said]; rfl
          rw [List.filter_cons_of_pos dropped, List.filterMap_cons_some said]
          exact .cons (Event.reports_of_diagnostic? said) ih

section Drops

variable {s s' : Stack} {p : Place} {text : List Char} {events : List Event}

theorem Diagnostic.Reports.start {d : Diagnostic} {e : Event} (h : d.Reports e) :
    d.range.start = e.piece.start.position := by
  cases e with
  | dropped t expected => exact PointsAt.start h
  | unreadable u => exact h.1
  | passed p => exact h.elim
  | taken t => exact h.elim

theorem Recovers.diagnostics_sorted (run : Recovers s p text events s') :
    (events.filterMap Event.diagnostic?).Pairwise
      fun d d' => d.range.start.Before d'.range.start := by
  rw [List.pairwise_filterMap]
  refine run.sorted.2.imp ?_
  intro e e' before d hd d' hd'
  rw [(Event.reports_of_diagnostic? hd).start, (Event.reports_of_diagnostic? hd').start]
  exact before.position

theorem Recovers.not_isAtEnd (run : Recovers s p text events s') :
    ∀ d ∈ events.filterMap Event.diagnostic?, d.isAtEnd = false := by
  intro d hd
  obtain ⟨e, he, said⟩ := List.mem_filterMap.mp hd
  have reports := Event.reports_of_diagnostic? said
  cases e with
  | dropped t expected =>
      have met : t ∈ met events := List.mem_filterMap.mpr ⟨_, he, rfl⟩
      obtain ⟨rest, front⟩ := run.fronts t met
      exact Diagnostic.PointsAt.not_isAtEnd reports front
  | unreadable u =>
      by_contra atEnd
      have mismatch := Diagnostic.isMismatch_of_isAtEnd (by simpa using atEnd)
      rw [Diagnostic.isMismatch_of_unreadable reports] at mismatch
      cases mismatch
  | passed p => exact reports.elim
  | taken t => exact reports.elim

end Drops

/-- Every character of a text is accounted for once, and every diagnostic is
about something that was dropped, or about the end. -/
theorem recovery_accounts_for_text (source : List Char) :
    ∃ stack, Recovers [] .start source (Run.ofSource source).events stack ∧
      stack.Stands (kept (Run.ofSource source).events) ∧
      ∃ drops atEnd, (parse source).diagnostics = drops ++ atEnd ∧
        List.Forall₂ (fun e d => Diagnostic.Reports d e)
          ((Run.ofSource source).events.filter Event.isDropped) drops ∧
        (∀ d ∈ drops, d.isAtEnd = false) ∧
        drops.Pairwise (fun d d' => d.range.start.Before d'.range.start) ∧
        (atEnd = [] ∨ ∃ d, atEnd = [d] ∧ d.isAtEnd = true ∧
          d.range.start = endPosition (met (Run.ofSource source).events).getLast?) ∧
        (parse source).diagnostics.Nodup := by
  obtain ⟨stack, run, stands, ending⟩ := Run.recovers source
  have said := (parse_diagnostics source).trans (Run.diagnostics_eq _)
  have final := Run.finish_diagnostic stack (met (Run.ofSource source).events).getLast?
  rw [← ending] at final
  refine ⟨stack, run, stands, _, _, said, forall₂_reports _, run.not_isAtEnd,
    run.diagnostics_sorted, ?_, ?_⟩
  · rcases final with ⟨_, _, silent⟩ | one
    · exact Or.inl silent
    · exact Or.inr one
  · rw [said, List.nodup_append]
    refine ⟨run.diagnostics_sorted.imp ?_, ?_, ?_⟩
    · rintro d d' before rfl
      exact before.ne rfl
    · rcases final with ⟨_, _, silent⟩ | ⟨d, one, _⟩
      · rw [silent]
        exact List.nodup_nil
      · rw [one]
        exact List.pairwise_singleton _ d
    · rintro d hd d' hd' rfl
      have inside := run.not_isAtEnd d hd
      rcases final with ⟨_, _, silent⟩ | ⟨e, one, atEnd, _⟩
      · rw [silent] at hd'
        cases hd'
      · rw [one, List.mem_singleton] at hd'
        rw [hd', atEnd] at inside
        cases inside

end PvsIndex
