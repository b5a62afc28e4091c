import PvsIndex.Proofs.Grammar.Productive
import PvsIndex.Proofs.Parse.Recovery

/-!
# Where the first error is found

A row of tokens is *viable* when it is the beginning of a sentence.  The parser
refuses a token exactly when reading it would end that, and not one token later,
although it decides with sets of lookaheads which are larger than they need be.

Two facts make this up.  What a stack stands for is viable
(`Stack.Stands.viable`): an item of its state says what is missing up to the end
of a rule, and below the rule stands a shorter stack with an item that waits for
its phrase.  And a sentence is read without a refusal (`verdict_of_derives`), so
a token that is refused after some others begins no sentence together with them.

`Recovers.first_refusal` finds the first refused token of a run, and
`first_mismatch_is_earliest` reads all of it off the first diagnostic of its kind.
-/

namespace PvsIndex

/-! ## Beginnings of sentences -/

namespace Stack

section Viable

variable {s : Stack} {number dot : Nat} {r : Rule}

/-- Where the rules of a state come from that nothing has been read of: the
start phrase at the bottom, or the phrase behind the dot of an item that
something has been read of. -/
theorem Linked.opened_by (hs : Linked s) (hr : Rule.all[number]? = some r)
    (h : Item.code number 0 ∈ s.state) :
    (s = [] ∧ r.head.index ∈ Nonterminal.start.openings) ∨
      ∃ (number' dot' : Nat) (r' : Rule) (n : Nonterminal), Rule.all[number']? = some r' ∧
        r'.body[dot' + 1]? = some (.phrase n) ∧ Item.code number' (dot' + 1) ∈ s.state ∧
        r.head.index ∈ n.openings := by
  have head_of : ∀ {n : Nonterminal}, Item.code number 0 ∈ Item.openItems n →
      r.head.index ∈ n.openings := by
    intro n hn
    obtain ⟨number', r', hr', reached, same⟩ := Item.mem_openItems.mp hn
    obtain ⟨rfl, -⟩ := Item.code_inj (Nat.zero_lt_succ _) (Nat.zero_lt_succ _) same
    obtain rfl : r' = r := Option.some.inj (hr'.symm.trans hr)
    exact reached
  cases s with
  | nil => exact Or.inl ⟨rfl, head_of h⟩
  | cons f s =>
      obtain ⟨state_eq, _, below⟩ := hs
      have h' : Item.code number 0 ∈ State.goto (state s) f.symbol := state_eq ▸ h
      have moved : ∀ {i : Nat}, i ∈ state s → i ∈ Item.before f.symbol →
          ∃ number' dot' r', Item.code number' dot' = i ∧ Rule.all[number']? = some r' ∧
            dot' < r'.body.length := by
        intro i hi hx
        obtain ⟨number', dot', r', rfl, under⟩ := below.underWay hi
        have hd := (Item.code_mem_before under.rule under.dot_le).mp hx
        exact ⟨number', dot', r', rfl, under.rule, (List.getElem?_eq_some_iff.mp hd).1⟩
      rcases State.mem_goto.mp h' with ⟨i, hi, hx, same⟩ | ⟨n, ⟨i, hi, hx, hn⟩, opened⟩
      · -- a dot that has moved is not at the front
        obtain ⟨number', dot', r', rfl, hr', hd⟩ := moved hi hx
        obtain ⟨-, zero⟩ := Item.code_inj (Nat.zero_lt_succ _)
          (Nat.lt_of_le_of_lt hd (Item.length_lt hr')) same
        cases zero
      · obtain ⟨number', dot', r', rfl, hr', hd⟩ := moved hi hx
        refine Or.inr ⟨number', dot', r', n, hr', ?_, ?_, head_of opened⟩
        · exact (Item.code_mem_before hr' hd).mp hn
        · show Item.code number' dot' + 1 ∈ f.state
          rw [state_eq]
          exact State.succ_mem_goto hi hx

/-- With the rest of a rule that is under way, what a stack spells can be
completed. -/
theorem Linked.sentence_of_item : ∀ {s : Stack} {w : List Token}, Linked s → Spells s w →
    ∀ {number dot : Nat} {r : Rule} {v : List Token} {parts : List ParseTree},
      Rule.all[number]? = some r → dot ≤ r.body.length → Item.code number dot ∈ s.state →
        DerivesAll (r.body.drop dot) v parts → ∃ more, Sentence (w ++ v ++ more) := by
  intro s
  induction size : s.length using Nat.strongRecOn generalizing s with
  | _ size' ih =>
      subst size
      intro w hs hw
      -- first the rules that something has been read of: they were opened further down
      have kernel : ∀ {number dot : Nat} {r : Rule} {v : List Token} {parts : List ParseTree},
          Rule.all[number]? = some r → dot + 1 ≤ r.body.length →
            Item.code number (dot + 1) ∈ s.state → DerivesAll (r.body.drop (dot + 1)) v parts →
              ∃ more, Sentence (w ++ v ++ more) := by
        intro number dot r v parts hr hd hi derived
        have under := hs.underWay_of_code hr hd hi
        obtain ⟨below, top, rfl, spelled, read⟩ := hw.split (dot + 1)
        have shorter : (s.drop (dot + 1)).length < s.length := by
          have len := congrArg List.length under.read
          simp only [List.length_map, List.length_reverse, List.length_take] at len
          rw [List.length_drop]
          omega
        rw [under.read] at read
        have whole := read.append derived
        rw [List.take_append_drop] at whole
        obtain ⟨more, sentence⟩ := ih _ shorter rfl (hs.drop _) spelled hr (Nat.zero_le _)
          under.opened whole
        exact ⟨more, by simpa using sentence⟩
      intro number dot r v parts hr hd hi derived
      cases dot with
      | succ dot => exact kernel hr hd hi derived
      | zero =>
          have phrase : Derives (.phrase r.head) v (r.head.assemble parts) :=
            .phrase (Rule.mem_bodies hr) derived
          rcases hs.opened_by hr hi with ⟨rfl, opens⟩ | ⟨number', dot', r', n, hr', hn, hi', opens⟩
          · cases hw
            obtain ⟨more, trees, whole⟩ := phrase.of_openings opens
            exact ⟨more, trees, whole⟩
          · obtain ⟨more, trees, waited⟩ := phrase.of_openings opens
            obtain ⟨rest, _, others⟩ := DerivesAll.exists (r'.body.drop (dot' + 2))
            have hd' := (List.getElem?_eq_some_iff.mp hn).1
            have split : r'.body.drop (dot' + 1) = .phrase n :: r'.body.drop (dot' + 2) := by
              rw [List.drop_eq_getElem_cons hd', ← (List.getElem?_eq_some_iff.mp hn).2]
            have row := DerivesAll.cons waited others
            rw [← split] at row
            obtain ⟨last, sentence⟩ := kernel hr' (Nat.le_of_lt hd') hi' row
            exact ⟨more ++ rest ++ last, by simpa using sentence⟩

end Viable

/-- What a stack stands for is the beginning of a sentence. -/
theorem Stands.viable {s : Stack} {w : List Token} (h : s.Stands w) :
    ∃ more, Sentence (w ++ more) := by
  obtain ⟨k, hk⟩ : ∃ k, k ∈ s.state := by
    cases s with
    | nil =>
        obtain ⟨number, hr⟩ := Rule.exists_number (n := .start) (List.mem_cons_self ..)
        exact ⟨_, code_mem_openItems hr⟩
    | cons f s => exact BitSet.isEmpty_eq_false_iff.mp h.linked.2.1
  obtain ⟨number, dot, r, rfl, under⟩ := h.linked.underWay hk
  obtain ⟨v, _, rest⟩ := DerivesAll.exists (r.body.drop dot)
  obtain ⟨more, sentence⟩ :=
    h.linked.sentence_of_item h.spells under.rule under.dot_le hk rest
  exact ⟨v ++ more, by rwa [← List.append_assoc]⟩

end Stack

/-- Terminals of a sentence of the grammar as it is written down. -/
def IsSentence (ks : List Terminal) : Prop :=
  ∃ w trees, w.map Token.terminal = ks ∧ Reads (.symbol (.phrase .start)) w trees

/-- Terminals that a sentence begins with. -/
def IsViable (ks : List Terminal) : Prop :=
  ∃ more, IsSentence (ks ++ more)

theorem isSentence_iff {w : List Token} :
    IsSentence (w.map Token.terminal) ↔ Sentence w := by
  constructor
  · rintro ⟨w', _, same, reading⟩
    exact (reads_iff_derives.mp reading).of_terminals same.symm
  · rintro ⟨trees, derived⟩
    exact ⟨w, trees, rfl, reads_iff_derives.mpr derived⟩

theorem isViable_iff {w : List Token} :
    IsViable (w.map Token.terminal) ↔ ∃ more, Sentence (w ++ more) := by
  constructor
  · rintro ⟨ks, sentence⟩
    have terminals : ks = (ks.map fun k => Token.mk .start k []).map Token.terminal := by
      simp [Function.comp_def]
    rw [terminals, ← List.map_append] at sentence
    exact ⟨_, isSentence_iff.mp sentence⟩
  · rintro ⟨more, sentence⟩
    refine ⟨more.map Token.terminal, ?_⟩
    rw [← List.map_append]
    exact isSentence_iff.mpr sentence

theorem IsSentence.isViable {ks : List Terminal} (h : IsSentence ks) : IsViable ks :=
  ⟨[], by rwa [List.append_nil]⟩

/-- A front of what is viable is viable. -/
theorem IsViable.front {ks : List Terminal} (h : IsViable ks) (k : Nat) :
    IsViable (ks.take k) := by
  obtain ⟨more, sentence⟩ := h
  refine ⟨ks.drop k ++ more, ?_⟩
  rwa [← List.append_assoc, List.take_append_drop]

theorem IsViable.shorten {ks : List Terminal} {i j : Nat} (h : IsViable (ks.take j))
    (le : i ≤ j) : IsViable (ks.take i) := by
  have front := h.front i
  rwa [List.take_take, Nat.min_eq_left le] at front

/-! ## The first refusal -/

/-- Was a token refused? -/
def Event.isRefusal : Event → Bool
  | dropped .. => true
  | _ => false

@[simp] theorem met_append (events more : List Event) : met (events ++ more) = met events ++ met more :=
  List.filterMap_append

/-- Every token is read, so the stack comes to stand for all of them, and a
verdict goes the same way. -/
structure ReadsThrough (s : Stack) (w : List Token) (events : List Event) (s' : Stack) : Prop where
  no_refusal : ∀ e ∈ events, e.isRefusal = false
  stands : s'.Stands (w ++ met events)
  verdict : ∀ ts, s.verdict (met events ++ ts) = s'.verdict ts

namespace ReadsThrough

variable {s s₁ s' : Stack} {w : List Token} {events : List Event}

theorem nil (h : s.Stands w) : ReadsThrough s w [] s where
  no_refusal := nofun
  stands := by rwa [met, List.filterMap_nil, List.append_nil]
  verdict _ := rfl

theorem pass (h : ReadsThrough s w events s') {e : Event} (tokenless : e.piece.token? = none)
    (no_refusal : e.isRefusal = false) : ReadsThrough s w (e :: events) s' := by
  have same : met (e :: events) = met events := List.filterMap_cons_none tokenless
  refine ⟨List.forall_mem_cons.mpr ⟨no_refusal, h.no_refusal⟩, ?_, ?_⟩
  · rw [same]
    exact h.stands
  · rw [same]
    exact h.verdict

theorem taken {t : Token} (answer : s.feed (.terminal t.terminal) [.leaf t] = .taken s₁)
    (h : ReadsThrough s₁ (w ++ [t]) events s') : ReadsThrough s w (.taken t :: events) s' := by
  have more : met (.taken t :: events) = t :: met events := List.filterMap_cons_some rfl
  refine ⟨List.forall_mem_cons.mpr ⟨rfl, h.no_refusal⟩, ?_, fun ts => ?_⟩
  · rw [more, List.append_cons]
    exact h.stands
  · rw [more, List.cons_append, Stack.verdict, answer]
    exact h.verdict ts

/-- What is read through is viable. -/
theorem isViable (h : ReadsThrough [] [] events s') :
    IsViable ((met events).map Token.terminal) := by
  have viable := h.stands.viable
  rwa [List.nil_append, ← isViable_iff] at viable

end ReadsThrough

/-- A run reads all its tokens, or there is a first one that is refused. -/
theorem Recovers.first_refusal {s s' : Stack} {p : Place} {text : List Char} {events : List Event}
    (run : Recovers s p text events s') : ∀ {w : List Token}, s.Stands w →
      ReadsThrough s w events s' ∨
        ∃ front t expected back sₜ, events = front ++ .dropped t expected :: back ∧
          ReadsThrough s w front sₜ ∧
          ∃ s₁, Stack.feed sₜ (.terminal t.terminal) [.leaf t] = .refused s₁ := by
  -- an event in front that refuses nothing changes neither case
  have extend : ∀ {s s₁ s' : Stack} {w w₁ : List Token} {e : Event} {events : List Event},
      (∀ {events s'}, ReadsThrough s₁ w₁ events s' → ReadsThrough s w (e :: events) s') →
      (ReadsThrough s₁ w₁ events s' ∨ ∃ front t expected back sₜ,
        events = front ++ .dropped t expected :: back ∧ ReadsThrough s₁ w₁ front sₜ ∧
          ∃ s₁, Stack.feed sₜ (.terminal t.terminal) [.leaf t] = .refused s₁) →
      (ReadsThrough s w (e :: events) s' ∨ ∃ front t expected back sₜ,
        e :: events = front ++ .dropped t expected :: back ∧ ReadsThrough s w front sₜ ∧
          ∃ s₁, Stack.feed sₜ (.terminal t.terminal) [.leaf t] = .refused s₁) := by
    rintro s s₁ s' w w₁ e events lift (all | ⟨front, t, expected, back, sₜ, rfl, reads, refused⟩)
    · exact Or.inl (lift all)
    · exact Or.inr ⟨e :: front, t, expected, back, sₜ, rfl, lift reads, refused⟩
  induction run with
  | done s p => exact fun h => Or.inl (.nil h)
  | blank _ _ _ ih => exact fun h => extend (·.pass rfl rfl) (ih h)
  | comment _ _ _ ih => exact fun h => extend (·.pass rfl rfl) (ih h)
  | unreadable _ _ ih => exact fun h => extend (·.pass rfl rfl) (ih h)
  | taken _ answer _ ih => exact fun h => extend (.taken answer) (ih (h.taken answer))
  | @dropped s s₁ _ t _ events _ answer _ _ =>
      exact fun h => Or.inr ⟨[], t, _, events, s, rfl, .nil h, s₁, answer⟩

/-! ## The first mismatch -/

/-- The tokens of a text; what is unreadable is passed over. -/
def tokensOf (source : List Char) : List Token :=
  (scan source).filterMap Piece.token?

/-- The first diagnostic about something that does not fit. -/
def firstMismatch? (source : List Char) : Option Diagnostic :=
  (parse source).diagnostics.find? Diagnostic.isMismatch

theorem met_ofSource (source : List Char) : met (Run.ofSource source).events = tokensOf source :=
  met_steps [] (scan source)

/-- Without a refusal nothing is said about something that does not fit. -/
theorem find?_isMismatch_eq_none {events : List Event}
    (no_refusal : ∀ e ∈ events, e.isRefusal = false) :
    (events.filterMap Event.diagnostic?).find? Diagnostic.isMismatch = none := by
  rw [List.find?_eq_none]
  intro d hd
  obtain ⟨e, he, said⟩ := List.mem_filterMap.mp hd
  have reports := Event.reports_of_diagnostic? said
  have fits := no_refusal e he
  cases e with
  | unreadable u => simp [Diagnostic.isMismatch_of_unreadable reports]
  | dropped t expected => cases fits
  | passed p => exact reports.elim
  | taken t => exact reports.elim

/-- A position tells which token of a run is meant. -/
theorem Recovers.index_eq {s s' : Stack} {p : Place} {text : List Char} {events : List Event}
    (run : Recovers s p text events s') {i j : Nat} {t u : Token}
    (hi : (met events)[i]? = some t) (hj : (met events)[j]? = some u)
    (same : t.start.position = u.start.position) : i = j := by
  have sorted : (met events).Pairwise fun t u => t.start.position ≠ u.start.position := by
    rw [met, List.pairwise_filterMap]
    refine run.sorted.2.imp ?_
    intro e e' before t ht u hu
    rw [Piece.eq_token_of_token? ht, Piece.eq_token_of_token? hu] at before
    exact before.position.ne
  obtain ⟨li, rfl⟩ := List.getElem?_eq_some_iff.mp hi
  obtain ⟨lj, rfl⟩ := List.getElem?_eq_some_iff.mp hj
  rw [List.pairwise_iff_getElem] at sorted
  rcases Nat.lt_trichotomy i j with lt | eq | gt
  · exact absurd same (sorted i j li lj lt)
  · exact eq
  · exact absurd same.symm (sorted j i lj li gt)

/-- What is read through and accepted is a sentence, and nothing else is. -/
theorem ReadsThrough.isSentence_iff {events : List Event} {s' : Stack}
    (h : ReadsThrough [] [] events s') (last : Option Token) :
    IsSentence ((met events).map Token.terminal) ↔
      ∃ trees, Run.finish s' last = .accepted trees := by
  have same := h.verdict []
  rw [List.append_nil] at same
  rw [PvsIndex.isSentence_iff]
  simp only [Run.finish_eq_accepted_iff, ← same, Stack.verdict_eq_some_iff]
  rfl

/-- With a token that is refused, what is read through is no longer viable. -/
theorem ReadsThrough.not_isViable {events : List Event} {s' s₁ : Stack} {t : Token}
    (h : ReadsThrough [] [] events s')
    (refused : s'.feed (.terminal t.terminal) [.leaf t] = .refused s₁) :
    ¬ IsViable ((met events ++ [t]).map Token.terminal) := by
  rw [isViable_iff]
  rintro ⟨more, trees, derived⟩
  rw [List.append_assoc, ← Stack.verdict_eq_some_iff, h.verdict, List.singleton_append,
    Stack.verdict, refused] at derived
  cases derived

/-- The first mismatch is about a token, or about the end, or there is none. -/
theorem firstMismatch?_cases (source : List Char) :
    (∃ k t d, (tokensOf source)[k]? = some t ∧ firstMismatch? source = some d ∧ d.PointsAt t ∧
        IsViable (((tokensOf source).map Token.terminal).take k) ∧
        ¬ IsViable (((tokensOf source).map Token.terminal).take (k + 1))) ∨
      (∃ d, firstMismatch? source = some d ∧ d.isAtEnd = true ∧
        IsViable ((tokensOf source).map Token.terminal) ∧
        ¬ IsSentence ((tokensOf source).map Token.terminal)) ∨
      (firstMismatch? source = none ∧ IsSentence ((tokensOf source).map Token.terminal)) := by
  obtain ⟨stack, run, _, ending⟩ := Run.recovers source
  rw [firstMismatch?, parse_diagnostics, Run.diagnostics_eq, ← met_ofSource]
  rcases run.first_refusal Stack.stands_nil with
    through | ⟨front, t, expected, back, sₜ, events, through, s₁, refused⟩
  · right
    rw [List.find?_append, find?_isMismatch_eq_none through.no_refusal, Option.none_or]
    have sentence := through.isSentence_iff (met (Run.ofSource source).events).getLast?
    rw [ending]
    rcases Run.finish_diagnostic stack (met (Run.ofSource source).events).getLast? with
      ⟨trees, accepted, none⟩ | ⟨d, one, atEnd, _⟩
    · exact Or.inr ⟨by rw [none, List.find?_nil], sentence.mpr ⟨trees, accepted⟩⟩
    · refine Or.inl ⟨d, ?_, atEnd, through.isViable, fun whole => ?_⟩
      · rw [one, List.find?_cons_of_pos (Diagnostic.isMismatch_of_isAtEnd atEnd)]
      · obtain ⟨trees, accepted⟩ := sentence.mp whole
        rw [accepted] at one
        cases one
  · left
    have split : met (Run.ofSource source).events = met front ++ t :: met back := by
      rw [events, met_append]
      rfl
    obtain ⟨d, said⟩ : ∃ d, (Event.dropped t expected).diagnostic? = some d := ⟨_, rfl⟩
    have points : d.PointsAt t := Event.reports_of_diagnostic? said
    refine ⟨(met front).length, t, d, ?_, ?_, points, ?_, ?_⟩
    · rw [split, List.getElem?_append_right (Nat.le_refl _), Nat.sub_self]
      rfl
    · rw [events, List.filterMap_append, List.filterMap_cons_some said, List.append_assoc,
        List.find?_append, find?_isMismatch_eq_none through.no_refusal, Option.none_or,
        List.cons_append, List.find?_cons_of_pos points.isMismatch]
    · rw [split, ← List.map_take, List.take_left]
      exact through.isViable
    · rw [split, ← List.map_take, List.append_cons, List.take_left' (by simp)]
      exact through.not_isViable refused

/-- The first token that does not fit is the first that no sentence can go on
with, and a text that is too short is the beginning of a sentence. -/
theorem first_mismatch_is_earliest (source : List Char) :
    (∀ k, (∃ d t, firstMismatch? source = some d ∧ (tokensOf source)[k]? = some t ∧ d.PointsAt t) ↔
        IsViable (((tokensOf source).map Token.terminal).take k) ∧
          ¬ IsViable (((tokensOf source).map Token.terminal).take (k + 1))) ∧
      ((∃ d, firstMismatch? source = some d ∧ d.isAtEnd = true) ↔
        IsViable ((tokensOf source).map Token.terminal) ∧
          ¬ IsSentence ((tokensOf source).map Token.terminal)) ∧
      (firstMismatch? source = none ↔ IsSentence ((tokensOf source).map Token.terminal)) := by
  obtain ⟨_, run, _, _⟩ := Run.recovers source
  have fronts := run.fronts
  have index_eq := @run.index_eq
  have not_at_end : ∀ {d : Diagnostic} {t : Token} {k : Nat},
      (tokensOf source)[k]? = some t → d.PointsAt t → d.isAtEnd = false := by
    intro d t k ht points
    obtain ⟨rest, front⟩ := fronts t (met_ofSource source ▸ List.mem_of_getElem? ht)
    exact points.not_isAtEnd front
  rw [met_ofSource] at index_eq
  rcases firstMismatch?_cases source with
    ⟨k₀, t₀, d₀, ht₀, first, points₀, viable, dead⟩ | ⟨d₀, first, atEnd, viable, short⟩ |
      ⟨first, sentence⟩
  · refine ⟨fun k => ⟨?_, ?_⟩, iff_of_false ?_ ?_, iff_of_false ?_ ?_⟩
    · rintro ⟨d, t, same, ht, points⟩
      obtain rfl : d₀ = d := Option.some.inj (first.symm.trans same)
      obtain rfl := index_eq ht ht₀ (points.start.symm.trans points₀.start)
      exact ⟨viable, dead⟩
    · rintro ⟨alive, ends⟩
      have here : k = k₀ := by
        rcases Nat.lt_trichotomy k k₀ with lt | eq | gt
        · exact absurd (viable.shorten lt) ends
        · exact eq
        · exact absurd (alive.shorten gt) dead
      exact ⟨d₀, t₀, first, here ▸ ht₀, points₀⟩
    · rintro ⟨d, same, atEnd⟩
      obtain rfl : d₀ = d := Option.some.inj (first.symm.trans same)
      rw [not_at_end ht₀ points₀] at atEnd
      cases atEnd
    · exact fun h => dead (h.1.front _)
    · rw [first]
      exact nofun
    · exact fun sentence => dead (sentence.isViable.front _)
  · refine ⟨fun k => iff_of_false ?_ fun h => h.2 (viable.front _),
      iff_of_true ⟨d₀, first, atEnd⟩ ⟨viable, short⟩, iff_of_false ?_ short⟩
    · rintro ⟨d, t, same, ht, points⟩
      obtain rfl : d₀ = d := Option.some.inj (first.symm.trans same)
      rw [not_at_end ht points] at atEnd
      cases atEnd
    · rw [first]
      exact nofun
  · rw [first]
    refine ⟨fun k => iff_of_false ?_ fun h => h.2 (sentence.isViable.front _),
      iff_of_false ?_ fun h => h.2 sentence, iff_of_true rfl sentence⟩
    · rintro ⟨d, t, same, _⟩
      cases same
    · rintro ⟨d, same, _⟩
      cases same

end PvsIndex
