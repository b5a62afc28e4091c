import PvsIndex.Proofs.Parse.Linked

/-!
# Offering a lookahead to a linked stack

`Stack.feed` counts its steps, and it has an answer for a machine that cannot
go on.  On a linked stack neither shows: `Linked.feed_eq` is the equation of
`feed` without a count and without that answer.  Two facts carry it.

  * A recognised rule is on the stack and its phrase is awaited below it
    (`Linked.unwind?_eq`, `Linked.reduce`), so no rule is ever in the way.
  * Recognising a rule makes the stack lighter (`weight_reduce_lt`).  A body of
    several symbols shortens it; a body of one symbol puts a phrase of lower
    rank in its place, and ranks end at zero.

With it, `Linked.feed_sound` says what every answer means for the tokens that
the stack stands for.
-/

namespace PvsIndex

/-! ## What a move says about the state -/

namespace State

theorem finished?_spec {s : State} {a : Lookahead} {r : Rule} (h : s.finished? a = some r) :
    ∃ number, Rule.all[number]? = some r ∧ a.index ∈ r.head.follow ∧
      Item.code number r.body.length ∈ s := by
  obtain ⟨k, hmax, hrule⟩ := Option.bind_eq_some_iff.mp h
  obtain ⟨hk, closed⟩ := BitSet.mem_inter.mp (BitSet.mem_of_max? hmax)
  obtain ⟨number, r', hr', follows, rfl⟩ := Item.mem_closedAt.mp closed
  rw [Item.ruleOf?_code (Item.length_lt hr'), hr'] at hrule
  obtain rfl := Option.some.inj hrule
  exact ⟨number, hr', follows, hk⟩

theorem move?_reduce {s : State} {a : Lookahead} {r : Rule} (h : s.move? a = some (.reduce r)) :
    ∃ number, Rule.all[number]? = some r ∧ a.index ∈ r.head.follow ∧
      Item.code number r.body.length ∈ s := by
  unfold move? at h
  split at h
  · cases h
  · obtain ⟨r', hr, same⟩ := Option.map_eq_some_iff.mp h
    obtain rfl := Move.reduce.inj same
    exact finished?_spec hr

theorem awaited?_eq_some {s : State} {a : Lookahead} {t : Terminal} :
    s.awaited? a = some t ↔ a = .terminal t ∧ ∃ i ∈ s, i ∈ Item.before (.terminal t) := by
  cases a with
  | endOfText => simp [awaited?]
  | terminal u =>
      cases empty : (s.inter (Item.before (.terminal u))).isEmpty with
      | true =>
          have none_waits : ¬ ∃ i ∈ s, i ∈ Item.before (.terminal u) := by
            rintro ⟨i, hi, hu⟩
            have := BitSet.isEmpty_eq_false_iff.mpr ⟨i, BitSet.mem_inter.mpr ⟨hi, hu⟩⟩
            rw [empty] at this
            cases this
          simp only [awaited?, empty, if_true, reduceCtorEq, Lookahead.terminal.injEq, false_iff]
          rintro ⟨rfl, waits⟩
          exact none_waits waits
      | false =>
          obtain ⟨i, hi⟩ := BitSet.isEmpty_eq_false_iff.mp empty
          simp only [awaited?, empty, Bool.false_eq_true, if_false, Option.some.injEq,
            Lookahead.terminal.injEq]
          constructor
          · rintro rfl
            exact ⟨rfl, i, BitSet.mem_inter.mp hi⟩
          · exact fun h => h.1

theorem move?_shift {s : State} {a : Lookahead} {t : Terminal} (h : s.move? a = some (.shift t)) :
    a = .terminal t ∧ ∃ i ∈ s, i ∈ Item.before (.terminal t) := by
  unfold move? at h
  split at h
  next u awaited =>
      obtain rfl := Move.shift.inj (Option.some.inj h)
      exact awaited?_eq_some.mp awaited
  next =>
      obtain ⟨_, _, same⟩ := Option.map_eq_some_iff.mp h
      cases same

/-- An awaited terminal is read. -/
theorem move?_of_awaited {s : State} {t : Terminal} {i : Nat} (hi : i ∈ s)
    (ht : i ∈ Item.before (.terminal t)) : s.move? (.terminal t) = some (.shift t) := by
  have awaited : s.awaited? (.terminal t) = some t := awaited?_eq_some.mpr ⟨rfl, i, hi, ht⟩
  simp only [move?, awaited]

end State

/-! ## Taking a rule off the stack -/

namespace Stack

/-- What the head of a rule on top of the stack contributes. -/
def contribution (s : Stack) (r : Rule) : List ParseTree :=
  r.head.assemble ((s.take r.body.length).reverse.flatMap Frame.parts)

/-- The stack with the head of a rule in the place of its body. -/
def reduce (s : Stack) (r : Rule) : Stack :=
  Stack.push (s.drop r.body.length) r.head (s.contribution r)

theorem Linked.underWay_of_code {s : Stack} (hs : Linked s) {number dot : Nat} {r : Rule}
    (hr : Rule.all[number]? = some r) (hd : dot ≤ r.body.length)
    (h : Item.code number dot ∈ s.state) : s.UnderWay number dot r := by
  obtain ⟨number', dot', r', same, under⟩ := hs.underWay h
  obtain ⟨rfl, rfl⟩ := Item.code_inj (Nat.lt_of_le_of_lt under.dot_le (Item.length_lt under.rule))
    (Nat.lt_of_le_of_lt hd (Item.length_lt hr)) same
  obtain rfl : r' = r := Option.some.inj (under.rule.symm.trans hr)
  exact under

section Recognised

variable {s : Stack} {a : Lookahead} {r : Rule}

theorem Linked.body_on_top (hs : Linked s) (h : s.state.move? a = some (.reduce r)) :
    (s.take r.body.length).reverse.map Frame.symbol = r.body := by
  obtain ⟨number, hr, _, final⟩ := State.move?_reduce h
  simpa using (hs.underWay_of_code hr (Nat.le_refl _) final).read

theorem Linked.length_body_le (hs : Linked s) (h : s.state.move? a = some (.reduce r)) :
    r.body.length ≤ s.length := by
  have len := congrArg List.length (hs.body_on_top h)
  simp only [List.length_map, List.length_reverse, List.length_take] at len
  omega

theorem Linked.unwind?_eq (hs : Linked s) (h : s.state.move? a = some (.reduce r)) :
    s.unwind? r = some (s.contribution r, s.drop r.body.length) := by
  unfold unwind?
  rw [if_pos (hs.body_on_top h)]
  rfl

theorem Linked.awaited_below (hs : Linked s) (h : s.state.move? a = some (.reduce r)) :
    (r.head = .start ∧ s.drop r.body.length = []) ∨
      ∃ i ∈ Stack.state (s.drop r.body.length), i ∈ Item.before (.phrase r.head) := by
  obtain ⟨number, hr, _, final⟩ := State.move?_reduce h
  have under := hs.underWay_of_code hr (Nat.le_refl _) final
  exact (hs.drop r.body.length).awaited hr under.opened

/-- The start rule is recognised only when its body is the whole stack. -/
theorem Linked.drop_eq_nil (hs : Linked s) (h : s.state.move? a = some (.reduce r))
    (start : r.head = .start) : s.drop r.body.length = [] := by
  rcases hs.awaited_below h with ⟨_, empty⟩ | ⟨i, _, hb⟩
  · exact empty
  · rw [start] at hb
    exact absurd hb Item.not_mem_before_start

theorem Linked.reduce (hs : Linked s) (h : s.state.move? a = some (.reduce r))
    (inner : r.head ≠ .start) : Linked (s.reduce r) := by
  rcases hs.awaited_below h with ⟨start, _⟩ | ⟨i, hi, hb⟩
  · exact absurd start inner
  · exact (hs.drop _).push _ hi hb

/-! ## Weights -/

end Recognised

end Stack

/-- How far down a symbol stands in the chains of bodies with one symbol. -/
def Symbol.rank : Symbol → Nat
  | terminal _ => 13
  | phrase n =>
    match n with
    | .theories | .theoryPart | .typeExpr | .bindingGroup | .bindingExpr | .iffExpr => 1
    | .theory | .importing | .typeDeclaration | .formulaDeclaration | .constDeclaration
    | .varDeclaration | .typeName | .functionType | .tupleType | .subtype | .enumType
    | .predicateSubtype | .impliesExpr => 2
    | .orExpr => 3
    | .andExpr => 4
    | .notExpr => 5
    | .comparison => 6
    | .additive => 7
    | .multiplicative => 8
    | .unary => 9
    | .application => 10
    | .primary => 11
    | .identifier | .tupleExpr | .ifExpr => 12
    | _ => 0

theorem Symbol.rank_le (x : Symbol) : x.rank ≤ 13 := by
  cases x with
  | terminal t => exact Nat.le_refl _
  | phrase n => cases n <;> decide

theorem Nonterminal.rank_lt {n : Nonterminal} {x : Symbol} (h : [x] ∈ n.bodies) :
    (Symbol.phrase n).rank < x.rank := by
  have lower : n.bodies.all (fun body => body.all fun y =>
      decide (body.length ≠ 1 ∨ (Symbol.phrase n).rank < y.rank)) = true := by
    cases n <;> decide
  have := List.all_eq_true.mp lower [x] h
  simpa using this

namespace Stack

/-- What recognising a rule makes smaller. -/
def weight : Stack → Nat
  | [] => 0
  | f :: s => (s.length + 1) * (Nonterminal.all.length + 1) + f.symbol.rank

theorem weight_lt_patience (s : Stack) : s.weight < s.patience := by
  cases s with
  | nil => decide
  | cons f s =>
      have rank_le := f.symbol.rank_le
      have count : Nonterminal.all.length = 54 := rfl
      simp only [weight, patience, List.length_cons, count]
      omega

theorem weight_reduce_lt {s : Stack} {a : Lookahead} {r : Rule} (hs : Linked s)
    (h : s.state.move? a = some (.reduce r)) : (s.reduce r).weight < s.weight := by
  obtain ⟨number, hr, _, _⟩ := State.move?_reduce h
  have body := Rule.mem_bodies hr
  have nonempty := List.length_pos_iff.mpr (Nonterminal.bodies_ne_nil body)
  have fits := hs.length_body_le h
  have top := hs.body_on_top h
  have head_le := (Symbol.phrase r.head).rank_le
  have count : Nonterminal.all.length = 54 := rfl
  cases s with
  | nil => exact absurd fits (Nat.not_le_of_lt nonempty)
  | cons f s =>
      simp only [reduce, push, weight, List.length_drop, List.length_cons, count] at fits ⊢
      by_cases unit : r.body.length = 1
      · have single : r.body = [f.symbol] := by
          rw [← top, unit]
          rfl
        have lower := Nonterminal.rank_lt (single ▸ body)
        rw [unit]
        omega
      · omega

/-! ## The equation of `feed` -/

theorem Linked.feedWithin_succ {s : Stack} (hs : Linked s) (a : Lookahead)
    (leaf : List ParseTree) (steps : Nat) :
    feedWithin a leaf (steps + 1) s =
      match s.state.move? a with
      | none => .refused s
      | some (.shift t) => .taken (s.push t leaf)
      | some (.reduce r) =>
        if r.head = .start then .accepted (s.contribution r)
        else feedWithin a leaf steps (s.reduce r) := by
  cases move : s.state.move? a with
  | none => simp only [feedWithin, move]
  | some m =>
      cases m with
      | shift t => simp only [feedWithin, move]
      | reduce r =>
          by_cases start : r.head = .start
          · simp only [feedWithin, move, hs.unwind?_eq move, start, if_true]
          · have full : (Stack.state (s.reduce r)).isEmpty = false := (hs.reduce move start).2.1
            simp only [Stack.reduce] at full
            simp only [feedWithin, move, hs.unwind?_eq move, start, if_false, full, Stack.reduce,
              Bool.false_eq_true]

/-- Any count above the weight is enough. -/
theorem Linked.feedWithin_enough {a : Lookahead} {leaf : List ParseTree} :
    ∀ {n m : Nat} {s : Stack}, Linked s → s.weight < n → s.weight < m →
      feedWithin a leaf n s = feedWithin a leaf m s
  | 0, _, _, _, hn, _ => absurd hn (Nat.not_lt_zero _)
  | _, 0, _, _, _, hm => absurd hm (Nat.not_lt_zero _)
  | n + 1, m + 1, s, hs, hn, hm => by
      rw [hs.feedWithin_succ, hs.feedWithin_succ]
      cases move : s.state.move? a with
      | none => rfl
      | some mv =>
          cases mv with
          | shift t => rfl
          | reduce r =>
              by_cases start : r.head = .start
              · simp only [start, if_true]
              · have lighter := weight_reduce_lt hs move
                simp only [start, if_false]
                exact (hs.reduce move start).feedWithin_enough (by omega) (by omega)

/-- What a linked stack answers, without counting steps. -/
theorem Linked.feed_eq {s : Stack} (hs : Linked s) (a : Lookahead) (leaf : List ParseTree) :
    s.feed a leaf =
      match s.state.move? a with
      | none => .refused s
      | some (.shift t) => .taken (s.push t leaf)
      | some (.reduce r) =>
        if r.head = .start then .accepted (s.contribution r) else (s.reduce r).feed a leaf := by
  have one_more : s.feed a leaf = feedWithin a leaf (s.patience + 1) s :=
    hs.feedWithin_enough s.weight_lt_patience (Nat.lt_succ_of_lt s.weight_lt_patience)
  rw [one_more, hs.feedWithin_succ]
  cases move : s.state.move? a with
  | none => rfl
  | some m =>
      cases m with
      | shift t => rfl
      | reduce r =>
          by_cases start : r.head = .start
          · simp only [start, if_true]
          · have lighter := weight_reduce_lt hs move
            have enough := s.weight_lt_patience
            simp only [start, if_false]
            exact (hs.reduce move start).feedWithin_enough (by omega) (weight_lt_patience _)

/-- What holds of a linked stack when it holds of the stack after recognising a
rule, holds of all linked stacks. -/
theorem Linked.feed_induction {P : Stack → Prop} (a : Lookahead)
    (step : ∀ s, Linked s →
      (∀ r, s.state.move? a = some (.reduce r) → r.head ≠ .start → P (s.reduce r)) → P s) :
    ∀ s, Linked s → P s := by
  intro s
  induction weight_eq : s.weight using Nat.strongRecOn generalizing s with
  | _ n ih =>
      intro hs
      refine step s hs fun r move inner => ?_
      have lighter := weight_reduce_lt hs move
      exact ih _ (weight_eq ▸ lighter) _ rfl (hs.reduce move inner)

/-! ## The tokens a stack stands for -/

/-- These tokens, in order, make up the symbols of the stack. -/
inductive Spells : Stack → List Token → Prop where
  | nil : Spells [] []
  | cons {f : Frame} {s : Stack} {w v : List Token} :
      Spells s w → Derives f.symbol v f.parts → Spells (f :: s) (w ++ v)

theorem Spells.split : ∀ {s : Stack} {w : List Token} (k : Nat), Spells s w →
    ∃ below top, w = below ++ top ∧ Spells (s.drop k) below ∧
      DerivesAll ((s.take k).reverse.map Frame.symbol) top
        ((s.take k).reverse.flatMap Frame.parts)
  | _, w, 0, h => ⟨w, [], by simp, h, .nil⟩
  | _, _, _ + 1, .nil => ⟨[], [], rfl, .nil, .nil⟩
  | _, _, k + 1, .cons (v := v) h one => by
      obtain ⟨below, top, rfl, hb, ht⟩ := h.split k
      refine ⟨below, top ++ v, List.append_assoc .., hb, ?_⟩
      simpa using ht.append (.single one)

theorem Spells.contribution {s : Stack} {w : List Token} (h : Spells s w) (hs : Linked s)
    {a : Lookahead} {r : Rule} (move : s.state.move? a = some (.reduce r)) :
    ∃ below top, w = below ++ top ∧ Spells (s.drop r.body.length) below ∧
      Derives (.phrase r.head) top (s.contribution r) := by
  obtain ⟨below, top, rfl, hb, ht⟩ := h.split r.body.length
  obtain ⟨number, hr, _, _⟩ := State.move?_reduce move
  rw [hs.body_on_top move] at ht
  exact ⟨below, top, rfl, hb, .phrase (Rule.mem_bodies hr) ht⟩

theorem Spells.reduce {s : Stack} {w : List Token} (h : Spells s w) (hs : Linked s)
    {a : Lookahead} {r : Rule} (move : s.state.move? a = some (.reduce r)) :
    Spells (s.reduce r) w := by
  obtain ⟨below, top, rfl, hb, derived⟩ := h.contribution hs move
  exact .cons hb derived

/-- What an answer to the lookahead `a` means, when the stack stood for `w` and
the lookahead stands for `v`. -/
def AnswerSound (a : Lookahead) (w v : List Token) : Answer → Prop
  | .taken s => s.Linked ∧ s.Spells (w ++ v) ∧ a ≠ .endOfText
  | .refused s => s.Linked ∧ s.Spells w ∧ s.state.move? a = none
  | .accepted trees => a = .endOfText ∧ Derives (.phrase .start) w trees
  | .stuck => False

theorem Linked.feed_sound {a : Lookahead} {leaf : List ParseTree} {w v : List Token}
    (hv : ∀ t, a = .terminal t → Derives (.terminal t) v leaf) :
    ∀ s, Linked s → Spells s w → AnswerSound a w v (s.feed a leaf) := by
  refine Linked.feed_induction a fun s hs ih hw => ?_
  rw [hs.feed_eq]
  cases move : s.state.move? a with
  | none => exact ⟨hs, hw, move⟩
  | some m =>
      cases m with
      | shift t =>
          obtain ⟨rfl, i, hi, ht⟩ := State.move?_shift move
          exact ⟨hs.push _ hi ht, .cons hw (hv t rfl), Lookahead.noConfusion⟩
      | reduce r =>
          by_cases start : r.head = .start
          · simp only [start, if_true]
            obtain ⟨below, top, rfl, hb, derived⟩ := hw.contribution hs move
            rw [hs.drop_eq_nil move start] at hb
            cases hb
            obtain ⟨_, _, follows, _⟩ := State.move?_reduce move
            rw [start] at follows derived
            refine ⟨?_, derived⟩
            cases a with
            | terminal t => exact absurd follows (Nonterminal.terminal_not_mem_follow_start t)
            | endOfText => rfl
          · simp only [start, if_false]
            exact ih r move start (hw.reduce hs move)

end Stack

end PvsIndex
