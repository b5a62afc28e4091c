import PvsIndex.Proofs.Parse.Expecting

/-!
# What is listed at the first error

At the first error the tokens `w` before it have been read, and it would be good
to know that everything which can go on from `w` is listed.  It is not
(`brackets_not_listed`): the list is that of the state in which the token was
refused, and before that the token may have made the parser recognise phrases.
What one of the states on that way waited for may be gone from the last one.

Nothing else is ever missing.  A state has at most one rule read to its end, so a
lookahead that can go on from `w` is either read in one of the states that were
left, which is to say that the parser has passed over it (`Stack.PassesOver`), or
it makes the parser recognise the very same phrases, up to the last state, which
has a move on it (`Linked.move?_or_passesOver`).  The end of a text is never read,
so it is always listed when the text could have stopped there.
-/

namespace PvsIndex

open Relation (ReflTransGen)

/-! ## Recognising phrases before a refusal -/

namespace Stack

/-- Since `a` stands ahead, a rule is recognised. -/
inductive Recognises (a : Lookahead) : Stack → Stack → Prop where
  | mk {s : Stack} {r : Rule} :
      s.state.move? a = some (.reduce r) → r.head ≠ .start → Recognises a s (s.reduce r)

/-- The terminal `b` could have been read, but the parser went on and recognised
a rule, since `a` stands ahead. -/
def PassesOver (s : Stack) (a : Lookahead) (b : Terminal) : Prop :=
  ∃ s₁ s₂, ReflTransGen (Recognises a) s s₁ ∧
    s₁.state.move? (.terminal b) = some (.shift b) ∧ Recognises a s₁ s₂

/-- A refusal comes after all rules that are recognised. -/
theorem Linked.recognises_of_refused {a : Lookahead} {leaf : List ParseTree} {s' : Stack} :
    ∀ s, Linked s → s.feed a leaf = .refused s' →
      ReflTransGen (Recognises a) s s' ∧ s'.state.move? a = none := by
  refine Linked.feed_induction a fun s hs ih answer => ?_
  rw [hs.feed_eq] at answer
  cases move : s.state.move? a with
  | none =>
      rw [move] at answer
      obtain rfl := Answer.refused.inj answer
      exact ⟨.refl, move⟩
  | some m =>
      rw [move] at answer
      cases m with
      | shift t => cases answer
      | reduce r =>
          by_cases start : r.head = .start
          · simp only [start, if_true, reduceCtorEq] at answer
          · simp only [start, if_false] at answer
            obtain ⟨chain, stop⟩ := ih r move start answer
            exact ⟨.head (.mk move start) chain, stop⟩

theorem Linked.isSome_move?_of_verdict {s : Stack} (hs : s.Linked) {ts : List Token}
    {trees : List ParseTree} (h : s.verdict ts = some trees) :
    (s.state.move? (.ofTokens ts)).isSome = true := by
  cases move : s.state.move? (.ofTokens ts) with
  | some m => rfl
  | none =>
      have refused : ∀ leaf, s.feed (.ofTokens ts) leaf = .refused s := by
        intro leaf
        rw [hs.feed_eq, move]
      cases ts with
      | nil =>
          have answer := refused []
          rw [Lookahead.ofTokens] at answer
          rw [verdict, answer] at h
          cases h
      | cons t ts =>
          have answer := refused [.leaf t]
          rw [Lookahead.ofTokens] at answer
          rw [verdict, answer] at h
          cases h

/-- One rule at most is recognised in a state, whatever stands ahead. -/
theorem Linked.rule_eq {s : Stack} (hs : s.Linked) {a b : Lookahead} {r r' : Rule}
    (h : s.state.move? a = some (.reduce r)) (h' : s.state.move? b = some (.reduce r')) :
    r = r' := by
  obtain ⟨_, hr, _, final⟩ := State.move?_reduce h
  obtain ⟨_, hr', _, final'⟩ := State.move?_reduce h'
  exact hs.decided.one_end hr hr' final final'

/-- What can go on still has a move after some rules were recognised for another
lookahead, or it was passed over. -/
theorem Linked.move?_or_passesOver {a : Lookahead} {s s' : Stack} {ts : List Token}
    {trees : List ParseTree} (chain : ReflTransGen (Recognises a) s s') (hs : s.Linked)
    (h : s.verdict ts = some trees) :
    (s'.state.move? (.ofTokens ts)).isSome = true ∨
      ∃ b, Lookahead.ofTokens ts = .terminal b ∧ s.PassesOver a b := by
  induction chain using ReflTransGen.head_induction_on with
  | refl => exact Or.inl (hs.isSome_move?_of_verdict h)
  | @head s _ step _ ih =>
      obtain ⟨m, other⟩ := Option.isSome_iff_exists.mp (hs.isSome_move?_of_verdict h)
      cases step with
      | @mk r move inner =>
          cases m with
          | shift b =>
              have same := (State.move?_shift other).1
              exact Or.inr ⟨b, same, s, _, .refl, same ▸ other, .mk move inner⟩
          | reduce r' =>
              obtain rfl := hs.rule_eq move other
              rw [hs.verdict_reduce other inner] at h
              rcases ih (hs.reduce move inner) h with last | ⟨b, same, s₁, s₂, later, read, step⟩
              · exact Or.inl last
              · exact Or.inr ⟨b, same, s₁, s₂, .head (.mk move inner) later, read, step⟩

end Stack

/-! ## The first mismatch -/

/-- What does not fit is the front of these tokens, or the end if there are none. -/
def Diagnostic.IsAbout (d : Diagnostic) : List Token → Prop
  | [] => d.isAtEnd = true
  | t :: _ => d.PointsAt t

/-- How the front of a row of tokens is shown. -/
def textAhead : List Token → List Char
  | [] => Lookahead.endLabel.toList
  | t :: _ => t.text

/-- All characters of a text can be read, and its first diagnostic says that after
the tokens `w` the rest does not fit, but these labels would have.  They are labels
of the grammar; these have no blank, so a printed list of them falls apart in one
way only. -/
structure FirstMismatch (source : List Char) (w rest : List Token) (labels : List String) : Prop where
  tokens : tokenize source = .ok (w ++ rest)
  first : ∃ d, (parse source).diagnostics.head? = some d ∧ d.IsAbout rest ∧
    d.Expects (textAhead rest) labels
  known : ∀ shown ∈ labels, ∃ b : Lookahead, b.label = shown

/-- What the front of a row of tokens contributes. -/
def leafAhead : List Token → List ParseTree
  | [] => []
  | t :: _ => [.leaf t]

/-- A token or an end that is refused after tokens that can be read is the first
mismatch. -/
theorem firstMismatch_of_refused {source : List Char} {w rest : List Token} {s s' : Stack}
    (readable : tokenize source = .ok (w ++ rest)) (read : Stack.readAll? [] w = some s)
    (refused : s.feed (.ofTokens rest) (leafAhead rest) = .refused s') :
    FirstMismatch source w rest s'.state.expectedLabels := by
  have said := diagnostics_of_readAll? readable read
  have stands := Stack.stands_nil.readAll? read
  refine ⟨readable, ?_, fun shown hs => ?_⟩
  · cases rest with
    | nil =>
        have unfinished : ∀ last, Run.finish s last = .refused last s'.state.expected := by
          intro last
          rw [Lookahead.ofTokens, leafAhead] at refused
          rw [Run.finish, refused]
        obtain ⟨d, told, atEnd, _⟩ :=
          @Ending.diagnostic_of_refused (w ++ []).getLast? s'.state.expected
        rw [List.map_nil, Run.steps, unfinished, told] at said
        refine ⟨d, by rw [said]; rfl, atEnd, ?_⟩
        obtain ⟨s'', again, linked, _⟩ := stands.finish_refused (unfinished none)
        obtain rfl : s' = s'' := Answer.refused.inj (refused.symm.trans again)
        exact Ending.expects_of_fault? told linked
    | cons t back =>
        obtain ⟨d, told⟩ : ∃ d, (Event.dropped t s'.state.expected).diagnostic? = some d :=
          ⟨_, rfl⟩
        rw [Lookahead.ofTokens, leafAhead] at refused
        simp only [List.map_cons, Run.steps, Run.step, refused] at said
        rw [List.filterMap_cons_some told] at said
        exact ⟨d, by rw [said]; rfl, Event.reports_of_diagnostic? told,
          Event.expects_of_diagnostic? told (stands.refused refused).linked⟩
  · obtain ⟨b, _, same⟩ := State.mem_expectedLabels.mp hs
    exact ⟨b, same⟩

/-- All of some tokens are read, or there is a first one that is refused. -/
theorem Stack.Stands.readAll?_or_refused {s : Stack} {w : List Token} (h : s.Stands w)
    (ts : List Token) :
    (∃ s', s.readAll? ts = some s') ∨
      ∃ front t back s₀ s₁, ts = front ++ t :: back ∧ s.readAll? front = some s₀ ∧
        s₀.feed (.terminal t.terminal) [.leaf t] = .refused s₁ := by
  induction ts generalizing s w with
  | nil => exact Or.inl ⟨s, rfl⟩
  | cons t ts ih =>
      rcases h.feed_token t with ⟨s', answer, stands⟩ | ⟨s', answer, _⟩
      · rcases ih stands with ⟨s'', read⟩ | ⟨front, u, back, s₀, s₁, rfl, read, refused⟩
        · exact Or.inl ⟨s'', by rw [Stack.readAll?_cons _ answer, read]⟩
        · exact Or.inr ⟨t :: front, u, back, s₀, s₁, rfl,
            by rw [Stack.readAll?_cons _ answer, read], refused⟩
      · exact Or.inr ⟨[], t, ts, s, s', rfl, rfl, answer⟩

/-- A faulty text has a first token that is refused after those before it have been
read, or else its end is refused. -/
theorem exists_refused {source : List Char} {ts : List Token} (readable : tokenize source = .ok ts)
    (faulty : (parse source).diagnostics ≠ []) :
    ∃ w rest s s', ts = w ++ rest ∧ Stack.readAll? [] w = some s ∧
      s.feed (.ofTokens rest) (leafAhead rest) = .refused s' := by
  rcases Stack.stands_nil.readAll?_or_refused ts with
    ⟨s, read⟩ | ⟨front, t, back, s₀, s₁, rfl, read, refused⟩
  · rw [← List.append_nil ts] at readable
    have said := diagnostics_of_readAll? readable read
    rcases Run.finish_cases s (ts ++ []).getLast? with ⟨trees, accepted⟩ | ⟨expected, unfinished⟩
    · rw [List.map_nil, Run.steps, accepted] at said
      exact absurd said faulty
    · obtain ⟨s', refused, _⟩ := (Stack.stands_nil.readAll? read).finish_refused unfinished
      exact ⟨ts, [], s, s', (List.append_nil ts).symm, read, refused⟩
  · exact ⟨front, t :: back, s₀, s₁, rfl, read, refused⟩

/-! ## One reading of the first mismatch -/

theorem tokensOf_eq {source : List Char} {ts : List Token} (h : tokenize source = .ok ts) :
    tokensOf source = ts :=
  (readableTokens_eq_ok_iff.mp h).2

/-- No token of a readable text reads like its end. -/
theorem not_isAtEnd_of_pointsAt {source : List Char} {ts : List Token} {d : Diagnostic} {t : Token}
    (readable : tokenize source = .ok ts) (ht : t ∈ ts) (points : d.PointsAt t) :
    d.isAtEnd = false := by
  obtain ⟨_, run, _, _⟩ := Run.recovers source
  obtain ⟨rest, front⟩ := run.fronts t (by rwa [met_ofSource, tokensOf_eq readable])
  exact points.not_isAtEnd front

/-- A diagnostic tells where a row of tokens is cut. -/
theorem Diagnostic.IsAbout.cut_eq {source : List Char} {w rest w' rest' : List Token} {d : Diagnostic}
    (readable : tokenize source = .ok (w ++ rest)) (same : w ++ rest = w' ++ rest')
    (h : d.IsAbout rest) (h' : d.IsAbout rest') : w = w' ∧ rest = rest' := by
  have apart : ((w ++ rest).map fun t => t.start.position).Nodup := by
    rw [List.Nodup, List.pairwise_map]
    exact (tokenize_sorted readable).imp fun before => before.position.ne
  cases rest with
  | nil =>
      cases rest' with
      | nil => exact ⟨by simpa using same, rfl⟩
      | cons t' back' =>
          have inside : t' ∈ w ++ [] := by simp [same]
          rw [IsAbout, not_isAtEnd_of_pointsAt readable inside h'] at h
          cases h
  | cons t back =>
      cases rest' with
      | nil =>
          have inside : t ∈ w ++ t :: back := by simp
          rw [IsAbout, not_isAtEnd_of_pointsAt readable inside h] at h'
          cases h'
      | cons t' back' =>
          have position : t.start.position = t'.start.position := h.start.symm.trans h'.start
          have length : w.length = w'.length := by
            have lt : w.length < ((w ++ t :: back).map fun t => t.start.position).length := by simp
            refine (List.getElem?_inj lt apart).mp ?_
            conv_rhs => rw [same]
            simp [position]
          exact List.append_inj same length

/-- There is one reading of the first mismatch of a text. -/
theorem FirstMismatch.unique {source : List Char} {w rest w' rest' : List Token}
    {labels labels' : List String} (h : FirstMismatch source w rest labels)
    (h' : FirstMismatch source w' rest' labels') :
    w = w' ∧ rest = rest' ∧ labels = labels' := by
  obtain ⟨d, first, about, expects⟩ := h.first
  obtain ⟨d', first', about', expects'⟩ := h'.first
  obtain rfl : d = d' := Option.some.inj (first.symm.trans first')
  have same : w ++ rest = w' ++ rest' := Except.ok.inj (h.tokens.symm.trans h'.tokens)
  obtain ⟨rfl, rfl⟩ := about.cut_eq h.tokens same about'
  exact ⟨rfl, rfl, expects.labels_eq expects' h.known h'.known⟩

/-! ## What is listed -/

/-- What can go on from the tokens before the first error is listed, or the parser
has passed over it; and the end is listed if the text could have ended there. -/
theorem first_mismatch_lists_or_passes {source : List Char} {w rest : List Token}
    {labels : List String} (h : FirstMismatch source w rest labels) :
    ∃ s, Stack.readAll? [] w = some s ∧
      (∀ b, IsViable (w.map Token.terminal ++ [b]) →
        b.label ∈ labels ∨ s.PassesOver (.ofTokens rest) b) ∧
      (IsSentence (w.map Token.terminal) → Lookahead.endLabel ∈ labels) := by
  have faulty : (parse source).diagnostics ≠ [] := by
    obtain ⟨d, first, _⟩ := h.first
    exact List.ne_nil_of_mem (List.mem_of_head? first)
  obtain ⟨w', rest', s, s', same, read, refused⟩ := exists_refused h.tokens faulty
  obtain ⟨rfl, rfl, rfl⟩ := h.unique (firstMismatch_of_refused (same ▸ h.tokens) read refused)
  have linked := (Stack.stands_nil.readAll? read).linked
  obtain ⟨chain, _⟩ := linked.recognises_of_refused s refused
  -- whatever makes the tokens a sentence is read on from the stack
  have goes_on : ∀ {ts : List Token}, Sentence (w ++ ts) →
      (s'.state.move? (.ofTokens ts)).isSome = true ∨
        ∃ b, Lookahead.ofTokens ts = .terminal b ∧ s.PassesOver (.ofTokens rest) b := by
    rintro ts ⟨trees, derived⟩
    have verdict := Stack.verdict_of_derives derived
    rw [Stack.verdict_append read] at verdict
    exact Stack.Linked.move?_or_passesOver chain linked verdict
  refine ⟨s, read, fun b viable => ?_, fun sentence => ?_⟩
  · have terminals : w.map Token.terminal ++ [b] =
        (w ++ [(⟨.start, b, []⟩ : Token)]).map Token.terminal := by simp
    rw [terminals, isViable_iff] at viable
    obtain ⟨more, sentence⟩ := viable
    rw [List.append_assoc] at sentence
    rcases goes_on sentence with move | ⟨b', same, passes⟩
    · exact Or.inl (State.label_mem_expectedLabels.mpr move)
    · obtain rfl : b = b' := Lookahead.terminal.inj same
      exact Or.inr passes
  · rw [isSentence_iff, ← List.append_nil w] at sentence
    rcases goes_on sentence with move | ⟨_, same, _⟩
    · exact State.label_mem_expectedLabels.mpr move
    · cases same

/-! ## A bracket that is not listed -/

/-- Everything that can go on from the tokens before the first error is listed. -/
def ListsAllThatFits (source : List Char) : Prop :=
  ∀ w rest labels, FirstMismatch source w rest labels →
    (∀ b, IsViable (w.map Token.terminal ++ [b]) → b.label ∈ labels) ∧
      (IsSentence (w.map Token.terminal) → Lookahead.endLabel ∈ labels)

/-- After the name of a type a bracket could open, but it is not listed. -/
theorem brackets_not_listed : ¬ ListsAllThatFits oddBrackets := by
  intro all
  obtain ⟨s, s₁, s₂, read, taken, refused, _, _, unmoved, _⟩ := openedTokens_answers
  have mismatch := firstMismatch_of_refused tokenize_oddBrackets read refused
  have stands := (Stack.stands_nil.readAll? read).taken taken
  have viable : IsViable (openedTokens.map Token.terminal ++ [.mark .lsquare]) :=
    isViable_iff.mpr stands.viable
  have listed := (all _ _ _ mismatch).1 _ viable
  have move := (@State.label_mem_expectedLabels s₂.state (.terminal (.mark .lsquare))).mp listed
  rw [unmoved] at move
  cases move

theorem first_mismatch_lists_or_passes_oddBrackets :
    ∃ labels, FirstMismatch oddBrackets openedTokens [oddToken] labels ∧
      ∃ s, Stack.readAll? [] openedTokens = some s ∧
        (∀ b, IsViable (openedTokens.map Token.terminal ++ [b]) →
          b.label ∈ labels ∨ s.PassesOver (.ofTokens [oddToken]) b) ∧
        (IsSentence (openedTokens.map Token.terminal) → Lookahead.endLabel ∈ labels) := by
  obtain ⟨s, _, _, read, _, refused, _⟩ := openedTokens_answers
  have mismatch := firstMismatch_of_refused tokenize_oddBrackets read refused
  exact ⟨_, mismatch, first_mismatch_lists_or_passes mismatch⟩

end PvsIndex
