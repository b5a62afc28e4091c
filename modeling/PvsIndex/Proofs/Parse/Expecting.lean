import Mathlib.Data.List.Nodup
import PvsIndex.Proofs.Parse.Front
import PvsIndex.Proofs.Parse.Viable

/-!
# What a mismatch expects

A lookahead is refused in a state that has no move on it, and what is listed
after "expecting" are the lookaheads on which that state has one.  Three things
make the list fit to be read:

  * it is never empty (`Stack.Linked.exists_move`).  A state has an item.  With
    the dot at its end the rule is recognised on whatever may follow its phrase;
    before a terminal the terminal is read; before a phrase some rule is opened
    that begins with a terminal;
  * two lookaheads are never shown alike (`Lookahead.label_inj`), so sorting the
    labels leaves them in strictly growing order;
  * for the same reason the lookahead that was refused is not among them.

Recovery does not matter to any of it.  The stack that a refusal leaves is
linked like any other, however many refusals there were before.
-/

namespace PvsIndex

/-! ## Labels -/

namespace Lookahead

theorem nodup_labels : (all.map label).Nodup := by
  decide +kernel

theorem label_inj {a b : Lookahead} (h : a.label = b.label) : a = b :=
  List.inj_on_of_nodup_map nodup_labels a.mem_all b.mem_all h

end Lookahead

namespace State

theorem mem_expected {s : State} {a : Lookahead} : a ∈ s.expected ↔ (s.move? a).isSome = true := by
  rw [expected, List.mem_filter]
  exact and_iff_right a.mem_all

/-- What is shown of a state's moves: the labels of the lookaheads, sorted. -/
def expectedLabels (s : State) : List String :=
  (s.expected.map Lookahead.label).mergeSort fun a b => decide (a ≤ b)

theorem mem_expectedLabels {s : State} {shown : String} :
    shown ∈ s.expectedLabels ↔ ∃ a, (s.move? a).isSome = true ∧ a.label = shown := by
  rw [expectedLabels, (List.mergeSort_perm ..).mem_iff, List.mem_map]
  simp only [mem_expected]

theorem label_mem_expectedLabels {s : State} {a : Lookahead} :
    a.label ∈ s.expectedLabels ↔ (s.move? a).isSome = true := by
  rw [mem_expectedLabels]
  constructor
  · rintro ⟨b, move, same⟩
    rwa [← Lookahead.label_inj same]
  · exact fun move => ⟨a, move, rfl⟩

theorem nodup_expectedLabels (s : State) : s.expectedLabels.Nodup := by
  rw [expectedLabels, (List.mergeSort_perm ..).nodup_iff]
  exact (List.filter_sublist.map _).nodup Lookahead.nodup_labels

theorem expectedLabels_sorted (s : State) : s.expectedLabels.Pairwise (· < ·) := by
  have sorted : s.expectedLabels.Pairwise fun a b => decide (a ≤ b) = true := by
    refine List.pairwise_mergeSort (fun a b c ab bc => ?_) (fun a b => ?_) _
    · exact decide_eq_true (String.le_trans (of_decide_eq_true ab) (of_decide_eq_true bc))
    · rw [Bool.or_eq_true]
      exact (String.le_total a b).imp decide_eq_true decide_eq_true
  refine (sorted.and s.nodup_expectedLabels).imp ?_
  rintro a b ⟨le, ne⟩
  exact Std.lt_of_le_of_ne (of_decide_eq_true le) ne

end State

/-! ## A state has a move -/

/-- Something may follow every phrase. -/
theorem Nonterminal.exists_mem_follow (n : Nonterminal) : ∃ a : Lookahead, a.index ∈ n.follow := by
  have each : ∀ n ∈ all, ∃ a ∈ Lookahead.all, a.index ∈ n.follow := by decide +kernel
  obtain ⟨a, _, follows⟩ := each n n.mem_all
  exact ⟨a, follows⟩

/-- Some terminal is at the front of a rule that a phrase opens. -/
theorem Nonterminal.exists_front (n : Nonterminal) :
    ∃ k ∈ Item.openItems n, ∃ t : Terminal, k ∈ Item.before (.terminal t) := by
  obtain ⟨w, _, derived⟩ := n.exists_derives
  obtain ⟨t, ht⟩ : ∃ t, t ∈ w.head? := ⟨_, List.head?_eq_some_head derived.ne_nil⟩
  obtain ⟨m, opens, u, front, _⟩ := mem_first.mp (derived.first_mem t ht)
  obtain ⟨body, hb, first⟩ := List.mem_filterMap.mp front
  obtain ⟨number, hr⟩ := Rule.exists_number hb
  refine ⟨Item.code number 0, Item.mem_openItems.mpr ⟨number, _, hr, opens, rfl⟩, u, ?_⟩
  rw [Item.code_mem_before hr (Nat.zero_le _)]
  cases body with
  | nil => cases first
  | cons x xs =>
      cases x with
      | terminal u' =>
          obtain rfl : u' = u := by simpa using first
          rfl
      | phrase p => simp at first

namespace Stack

theorem Linked.exists_mem {s : Stack} (hs : s.Linked) : ∃ k, k ∈ s.state := by
  cases s with
  | nil =>
      obtain ⟨number, hr⟩ := Rule.exists_number (n := .start) (List.mem_cons_self ..)
      exact ⟨_, code_mem_openItems hr⟩
  | cons f s => exact BitSet.isEmpty_eq_false_iff.mp hs.2.1

/-- There is always something that fits. -/
theorem Linked.exists_move {s : Stack} (hs : s.Linked) :
    ∃ a, (s.state.move? a).isSome = true := by
  have read : ∀ {k : Nat} {t : Terminal}, k ∈ s.state → k ∈ Item.before (.terminal t) →
      ∃ a, (s.state.move? a).isSome = true := by
    intro k t hk ht
    exact ⟨.terminal t, by rw [State.move?_of_awaited hk ht]; rfl⟩
  obtain ⟨k, hk⟩ := hs.exists_mem
  obtain ⟨number, dot, r, rfl, under⟩ := hs.underWay hk
  have waits := fun x => Item.code_mem_before (x := x) under.rule under.dot_le
  cases next : r.body[dot]? with
  | none =>
      obtain rfl : dot = r.body.length :=
        Nat.le_antisymm under.dot_le (List.getElem?_eq_none_iff.mp next)
      obtain ⟨a, follows⟩ := r.head.exists_mem_follow
      exact ⟨a, by rw [hs.decided.move?_eq under.rule hk follows]; rfl⟩
  | some x =>
      cases x with
      | terminal t => exact read hk ((waits _).mpr next)
      | phrase n =>
          obtain ⟨i, opened, t, front⟩ := n.exists_front
          exact read (hs.opened hk ((waits _).mpr next) opened) front

theorem Linked.expectedLabels_ne_nil {s : Stack} (hs : s.Linked) :
    s.state.expectedLabels ≠ [] := by
  obtain ⟨a, move⟩ := hs.exists_move
  exact List.ne_nil_of_mem (State.label_mem_expectedLabels.mpr move)

end Stack

/-! ## Refusals -/

namespace Stack

theorem Stands.move?_of_refused {s s' : Stack} {w : List Token} {t : Token} (h : s.Stands w)
    (answer : s.feed (.terminal t.terminal) [.leaf t] = .refused s') :
    s'.state.move? (.terminal t.terminal) = none := by
  have leaf : ∀ u, Lookahead.terminal t.terminal = .terminal u →
      Derives (.terminal u) [t] [.leaf t] := by
    rintro u ⟨⟩
    exact .token t
  have sound := Linked.feed_sound leaf s h.linked h.spells
  rw [answer] at sound
  exact sound.2.2

/-- An end that is not accepted was refused. -/
theorem Stands.finish_refused {s : Stack} {w : List Token} (h : s.Stands w)
    {last last' : Option Token} {expected : List Lookahead}
    (ending : Run.finish s last = .refused last' expected) :
    ∃ s', s.feed .endOfText [] = .refused s' ∧ s'.Linked ∧ s'.state.move? .endOfText = none ∧
      expected = s'.state.expected := by
  have sound := @Linked.feed_sound .endOfText [] w [] nofun s h.linked h.spells
  rw [Run.finish] at ending
  cases answer : s.feed .endOfText [] with
  | accepted trees =>
      rw [answer] at ending
      cases ending
  | refused s' =>
      rw [answer] at ending sound
      cases ending
      exact ⟨s', rfl, sound.1, sound.2.2, rfl⟩
  | taken s' =>
      rw [answer] at sound
      exact absurd rfl sound.2.2
  | stuck =>
      rw [answer] at sound
      exact sound.elim

end Stack

/-- Whatever was dropped before, a token that is dropped was refused. -/
theorem Recovers.refused {s s' : Stack} {p : Place} {text : List Char} {events : List Event}
    (run : Recovers s p text events s') : ∀ {w : List Token}, s.Stands w →
      ∀ {t expected}, .dropped t expected ∈ events → ∃ s₁ : Stack, s₁.Linked ∧
        s₁.state.move? (.terminal t.terminal) = none ∧ expected = s₁.state.expected := by
  induction run with
  | done => nofun
  | blank _ _ _ ih => exact fun h _ _ hm => ih h ((List.mem_cons.mp hm).resolve_left nofun)
  | comment _ _ _ ih => exact fun h _ _ hm => ih h ((List.mem_cons.mp hm).resolve_left nofun)
  | unreadable _ _ ih => exact fun h _ _ hm => ih h ((List.mem_cons.mp hm).resolve_left nofun)
  | taken _ answer _ ih =>
      exact fun h _ _ hm => ih (h.taken answer) ((List.mem_cons.mp hm).resolve_left nofun)
  | @dropped s s₁ _ _ _ _ _ answer _ ih =>
      intro w h t expected hm
      rcases List.mem_cons.mp hm with same | later
      · cases same
        exact ⟨s₁, (h.refused answer).linked, h.move?_of_refused answer, rfl⟩
      · exact ih (h.refused answer) later

/-! ## The wording -/

namespace Diagnostic

/-- The diagnostic says that `text` does not fit, and which labels would have. -/
def Expects (d : Diagnostic) (text : List Char) (labels : List String) : Prop :=
  d.message = "mismatched input '" ++ String.ofList text ++ "' expecting \x7b" ++
    ", ".intercalate labels ++ "\x7d"

/-- The list is there, in strictly growing order, made of labels of the grammar,
and without the label of `a`. -/
structure ListsOthers (labels : List String) (a : Lookahead) : Prop where
  nonempty : labels ≠ []
  sorted : labels.Pairwise (· < ·)
  known : ∀ shown ∈ labels, ∃ b : Lookahead, b.label = shown
  other : a.label ∉ labels

end Diagnostic

/-! ## Reading a list back -/

/-- A row is cut where its first blank stands. -/
theorem cut_at_blank {x y x' y' : List Char} (hx : ' ' ∉ x) (hx' : ' ' ∉ x')
    (same : x ++ ' ' :: y = x' ++ ' ' :: y') : x = x' ∧ y = y' := by
  have front : ∀ {x y : List Char}, ' ' ∉ x → (x ++ ' ' :: y).takeWhile (· != ' ') = x := by
    intro x y hx
    rw [List.takeWhile_append_of_pos, List.takeWhile_cons_of_neg (by simp), List.append_nil]
    intro c hc
    rw [bne_iff_ne]
    rintro rfl
    exact hx hc
  obtain rfl : x = x' := by rw [← front hx, same, front hx']
  exact ⟨rfl, (List.cons_inj_right _).mp (List.append_cancel_left same)⟩

/-- Words without a blank can be told from each other when they are listed. -/
theorem intercalate_inj : ∀ {ws ws' : List (List Char)},
    (∀ w ∈ ws, w ≠ [] ∧ ' ' ∉ w) → (∀ w ∈ ws', w ≠ [] ∧ ' ' ∉ w) →
      [',', ' '].intercalate ws = [',', ' '].intercalate ws' → ws = ws'
  | [], [], _, _, _ => rfl
  | [], [w'], _, h', same => absurd (by simpa using same.symm) (h' w' (by simp)).1
  | [], w' :: v' :: ws', _, _, same => by simp at same
  | [w], [], h, _, same => absurd (by simpa using same) (h w (by simp)).1
  | w :: v :: ws, [], _, _, same => by simp at same
  | [w], [w'], _, _, same => by simpa using same
  | [w], w' :: v' :: ws', h, _, same => by
      have blank : ' ' ∈ w := by
        rw [List.intercalate_singleton, List.intercalate_cons_cons] at same
        simp [same]
      exact absurd blank (h w (by simp)).2
  | w :: v :: ws, [w'], _, h', same => by
      have blank : ' ' ∈ w' := by
        rw [List.intercalate_singleton, List.intercalate_cons_cons] at same
        simp [← same]
      exact absurd blank (h' w' (by simp)).2
  | w :: v :: ws, w' :: v' :: ws', h, h', same => by
      rw [List.intercalate_cons_cons, List.intercalate_cons_cons] at same
      have cut : (w ++ [',']) ++ ' ' :: [',', ' '].intercalate (v :: ws) =
          (w' ++ [',']) ++ ' ' :: [',', ' '].intercalate (v' :: ws') := by simpa using same
      obtain ⟨first, rest⟩ := cut_at_blank (by simp [(h w (by simp)).2])
        (by simp [(h' w' (by simp)).2]) cut
      obtain rfl := List.append_cancel_right first
      rw [intercalate_inj (fun x hx => h x (List.mem_cons_of_mem _ hx))
        (fun x hx => h' x (List.mem_cons_of_mem _ hx)) rest]

theorem Lookahead.label_one_word (a : Lookahead) : a.label.toList ≠ [] ∧ ' ' ∉ a.label.toList := by
  have every : ∀ a ∈ all, a.label.toList ≠ [] ∧ ' ' ∉ a.label.toList := by decide +kernel
  exact every a a.mem_all

/-- The message tells which labels it lists. -/
theorem Diagnostic.Expects.labels_eq {d : Diagnostic} {text : List Char} {labels labels' : List String}
    (h : d.Expects text labels) (h' : d.Expects text labels')
    (known : ∀ shown ∈ labels, ∃ b : Lookahead, b.label = shown)
    (known' : ∀ shown ∈ labels', ∃ b : Lookahead, b.label = shown) : labels = labels' := by
  have same : ", ".intercalate labels = ", ".intercalate labels' := by
    rw [Expects] at h h'
    rw [h, String.append_left_inj, String.append_right_inj] at h'
    exact h'
  rw [← String.toList_inj, String.toList_intercalate, String.toList_intercalate] at same
  have words : ∀ {labels : List String}, (∀ shown ∈ labels, ∃ b : Lookahead, b.label = shown) →
      ∀ w ∈ labels.map String.toList, w ≠ [] ∧ ' ' ∉ w := by
    intro labels known w hw
    obtain ⟨shown, hs, rfl⟩ := List.mem_map.mp hw
    obtain ⟨b, rfl⟩ := known shown hs
    exact b.label_one_word
  exact (List.map_inj_right fun _ _ => String.toList_inj.mp).mp
    (intercalate_inj (words known) (words known') same)

/-! ## Every mismatch -/

theorem Stack.Linked.listsOthers {s : Stack} (hs : s.Linked) {a : Lookahead}
    (unmoved : s.state.move? a = none) : Diagnostic.ListsOthers s.state.expectedLabels a where
  nonempty := hs.expectedLabels_ne_nil
  sorted := s.state.expectedLabels_sorted
  known := by
    intro shown hs
    obtain ⟨b, _, same⟩ := State.mem_expectedLabels.mp hs
    exact ⟨b, same⟩
  other := by
    rw [State.label_mem_expectedLabels, unmoved]
    exact Bool.false_ne_true

/-- A mismatch lists the labels of the state. -/
theorem Mismatch.message_eq {m : Mismatch} {s : Stack} (hs : s.Linked)
    (expected : m.expected = s.state.expected.map .known) {text : List Char}
    (shown : m.shownText = "'" ++ String.ofList text ++ "'") :
    m.message = "mismatched input '" ++ String.ofList text ++ "' expecting \x7b" ++
      ", ".intercalate s.state.expectedLabels ++ "\x7d" := by
  have labels : m.shownExpected = s.state.expectedLabels := by
    rw [shownExpected, expected, List.map_map]
    rfl
  rw [message, labels, shown]
  cases listed : s.state.expectedLabels with
  | nil => exact absurd listed hs.expectedLabels_ne_nil
  | cons label more =>
      have opening : "mismatched input '" = "mismatched input " ++ "'" := by decide
      have listing : "' expecting \x7b" = "'" ++ " expecting \x7b" := by decide
      simp only [opening, listing, String.append_assoc]

theorem Event.expects_of_diagnostic? {t : Token} {s : Stack} {d : Diagnostic}
    (said : (Event.dropped t s.state.expected).diagnostic? = some d) (hs : s.Linked) :
    d.Expects t.text s.state.expectedLabels := by
  obtain rfl := Option.some.inj said
  exact Mismatch.message_eq hs rfl rfl

theorem Ending.expects_of_fault? {last : Option Token} {s : Stack} {d : Diagnostic}
    (said : (Ending.refused last s.state.expected).fault?.map Fault.diagnostic = some d)
    (hs : s.Linked) : d.Expects Lookahead.endLabel.toList s.state.expectedLabels := by
  obtain rfl := Option.some.inj said
  exact Mismatch.message_eq hs rfl rfl

/-- Every mismatch lists some labels, in strictly growing order, and never the
label of what did not fit. -/
theorem mismatch_lists_others {source : List Char} {d : Diagnostic}
    (said : d ∈ (parse source).diagnostics) (mismatch : d.isMismatch = true) :
    ∃ text labels a, d.Expects text labels ∧ Diagnostic.ListsOthers labels a ∧
      ((∃ t ∈ tokensOf source, d.PointsAt t ∧ text = t.text ∧ a = .terminal t.terminal) ∨
        (d.isAtEnd = true ∧ text = Lookahead.endLabel.toList ∧ a = .endOfText)) := by
  obtain ⟨stack, run, stands, ending⟩ := Run.recovers source
  rw [parse_diagnostics, Run.diagnostics_eq, List.mem_append] at said
  rcases said with inside | final
  · obtain ⟨e, he, told⟩ := List.mem_filterMap.mp inside
    have reports := Event.reports_of_diagnostic? told
    cases e with
    | passed p => exact reports.elim
    | taken t => exact reports.elim
    | unreadable u =>
        rw [Diagnostic.isMismatch_of_unreadable reports] at mismatch
        cases mismatch
    | dropped t expected =>
        obtain ⟨s, linked, unmoved, rfl⟩ := run.refused Stack.stands_nil he
        have met : t ∈ tokensOf source := by
          rw [← met_ofSource]
          exact List.mem_filterMap.mpr ⟨_, he, rfl⟩
        exact ⟨_, _, _, Event.expects_of_diagnostic? told linked, linked.listsOthers unmoved,
          Or.inl ⟨t, met, reports, rfl, rfl⟩⟩
  · rw [ending, Option.mem_toList] at final
    rcases Run.finish_cases stack (met (Run.ofSource source).events).getLast? with
      ⟨trees, accepted⟩ | ⟨expected, refused⟩
    · rw [accepted] at final
      cases final
    · obtain ⟨s, _, linked, unmoved, rfl⟩ := stands.finish_refused refused
      rw [refused] at final
      obtain ⟨d', told, atEnd, _⟩ :=
        @Ending.diagnostic_of_refused (met (Run.ofSource source).events).getLast? s.state.expected
      obtain rfl : d' = d := Option.some.inj (told.symm.trans final)
      exact ⟨_, _, _, Ending.expects_of_fault? final linked, linked.listsOthers unmoved,
        Or.inr ⟨atEnd, rfl, rfl⟩⟩

/-- A formal parameter of a named type, with brackets that do not match. -/
def oddBrackets : List Char :=
  "T[a:b)".toList

/-- The tokens up to the name of the type. -/
def openedTokens : List Token :=
  [⟨⟨0, 1, 1⟩, .ident, ['T']⟩, ⟨⟨1, 1, 2⟩, .mark .lsquare, ['[']⟩, ⟨⟨2, 1, 3⟩, .ident, ['a']⟩,
   ⟨⟨3, 1, 4⟩, .mark .colon, [':']⟩, ⟨⟨4, 1, 5⟩, .ident, ['b']⟩]

/-- The parenthesis that comes instead of a bracket. -/
def oddToken : Token :=
  ⟨⟨5, 1, 6⟩, .mark .rparen, [')']⟩

/-- A bracket in its place. -/
def innerBracket : Token :=
  ⟨⟨5, 1, 6⟩, .mark .lsquare, ['[']⟩

theorem tokenize_oddBrackets : tokenize oddBrackets = .ok (openedTokens ++ [oddToken]) := by
  rfl

/-- After the name of a type an opening bracket is read.  A parenthesis is refused
there, and what is left by then waits for a comma or a closing bracket, no more for
an opening one, and not for the end. -/
theorem openedTokens_answers :
    ∃ s s₁ s₂, Stack.readAll? [] openedTokens = some s ∧
      s.feed (.terminal innerBracket.terminal) [.leaf innerBracket] = .taken s₁ ∧
      s.feed (.terminal oddToken.terminal) [.leaf oddToken] = .refused s₂ ∧
      (s₂.state.move? (.terminal (.mark .comma))).isSome = true ∧
      (s₂.state.move? (.terminal (.mark .rsquare))).isSome = true ∧
      s₂.state.move? (.terminal (.mark .lsquare)) = none ∧
      s₂.state.move? .endOfText = none := by
  have answers : ((Stack.readAll? [] openedTokens).bind fun s =>
      (s.feed (.terminal oddToken.terminal) [.leaf oddToken]).refused?.map fun s₂ =>
        (s.feed (.terminal innerBracket.terminal) [.leaf innerBracket]).taken?.isSome &&
          ((s₂.state.move? (.terminal (.mark .comma))).isSome &&
            ((s₂.state.move? (.terminal (.mark .rsquare))).isSome &&
              ((s₂.state.move? (.terminal (.mark .lsquare))).isNone &&
                (s₂.state.move? .endOfText).isNone)))) = some true := by
    decide +kernel
  obtain ⟨s, read, answers⟩ := Option.bind_eq_some_iff.mp answers
  obtain ⟨s₂, refused, answers⟩ := Option.map_eq_some_iff.mp answers
  simp only [Bool.and_eq_true, Option.isNone_iff_eq_none] at answers
  obtain ⟨taken, moves⟩ := answers
  obtain ⟨s₁, taken⟩ := Option.isSome_iff_exists.mp taken
  exact ⟨s, s₁, s₂, read, Answer.taken?_eq_some.mp taken, Answer.refused?_eq_some.mp refused, moves⟩

/-- The parenthesis is dropped, and then the end does not fit either. -/
theorem mismatch_lists_others_oddBrackets :
    ∃ labels d d', (parse oddBrackets).diagnostics = [d, d'] ∧
      d.Expects oddToken.text labels ∧ d'.Expects Lookahead.endLabel.toList labels ∧
      "','" ∈ labels ∧ "']'" ∈ labels ∧
      ∀ e ∈ [d, d'], e.isMismatch = true ∧
        ∃ text labels a, e.Expects text labels ∧ Diagnostic.ListsOthers labels a ∧
          ((∃ t ∈ tokensOf oddBrackets,
              e.PointsAt t ∧ text = t.text ∧ a = .terminal t.terminal) ∨
            (e.isAtEnd = true ∧ text = Lookahead.endLabel.toList ∧ a = .endOfText)) := by
  obtain ⟨s, _, s₂, read, _, refused, comma, closing, _, unfinished⟩ := openedTokens_answers
  have linked := ((Stack.stands_nil.readAll? read).refused refused).linked
  obtain ⟨d, told⟩ : ∃ d, (Event.dropped oddToken s₂.state.expected).diagnostic? = some d :=
    ⟨_, rfl⟩
  obtain ⟨d', told', atEnd, _⟩ :=
    @Ending.diagnostic_of_refused (openedTokens ++ [oddToken]).getLast? s₂.state.expected
  have finish : ∀ last, Run.finish s₂ last = .refused last s₂.state.expected := by
    intro last
    rw [Run.finish, linked.feed_eq, unfinished]
  have both : (parse oddBrackets).diagnostics = [d, d'] := by
    rw [diagnostics_of_readAll? tokenize_oddBrackets read]
    simp only [List.map_cons, List.map_nil, Run.steps, Run.step, refused, finish, told',
      List.filterMap_cons_some told]
    rfl
  refine ⟨_, d, d', both, Event.expects_of_diagnostic? told linked,
    Ending.expects_of_fault? told' linked, State.label_mem_expectedLabels.mpr comma,
    State.label_mem_expectedLabels.mpr closing, ?_⟩
  intro e he
  have mismatch : e.isMismatch = true := by
    rcases List.mem_pair.mp he with rfl | rfl
    · exact (Event.reports_of_diagnostic? told).isMismatch
    · exact Diagnostic.isMismatch_of_isAtEnd atEnd
  have said : e ∈ (parse oddBrackets).diagnostics := both ▸ he
  exact ⟨mismatch, mismatch_lists_others said mismatch⟩

end PvsIndex
