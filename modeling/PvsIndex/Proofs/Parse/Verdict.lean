import PvsIndex.Parse.Fault
import PvsIndex.Proofs.Parse.Automaton

/-!
# The verdict on a row of tokens

`Stack.verdict` reads tokens one after the other and then the end, and gives up
at the first refusal.  It is what is left of a run when nothing goes wrong:
`Run.steps_clean_iff` says so for every row of pieces.

`verdict_eq_some_iff` is the theorem of this module.  The verdict on a row of
tokens, from the empty stack, is the tree of their derivation.  From left to
right this is an invariant of the stack.  From right to left the derivation
drives the parser: `Derives.verdict_eq` says that a stack which waits for a
symbol reads any derivation of it, whatever comes after, provided that what
comes after may follow the symbol.  The induction is on the derivation, and it
is the stack and the rest of the tokens that must be kept general.
-/

namespace PvsIndex

/-- What stands at the front of a row of tokens. -/
def Lookahead.ofTokens : List Token → Lookahead
  | [] => .endOfText
  | t :: _ => .terminal t.terminal

namespace Stack

/-- The trees for a row of tokens, if every one of them is read and the end is
accepted. -/
def verdict : Stack → List Token → Option (List ParseTree)
  | s, [] =>
    match s.feed .endOfText [] with
    | .accepted trees => some trees
    | _ => none
  | s, t :: ts =>
    match s.feed (.terminal t.terminal) [.leaf t] with
    | .taken s' => verdict s' ts
    | _ => none

/-- The verdict depends on the answers to the first lookahead only. -/
theorem verdict_congr {s s' : Stack} {ts : List Token}
    (h : ∀ leaf, s.feed (.ofTokens ts) leaf = s'.feed (.ofTokens ts) leaf) :
    s.verdict ts = s'.verdict ts := by
  cases ts with
  | nil =>
      have same := h []
      simp only [Lookahead.ofTokens] at same
      rw [verdict, verdict, same]
  | cons t ts =>
      have same := h [.leaf t]
      simp only [Lookahead.ofTokens] at same
      rw [verdict, verdict, same]

theorem Linked.verdict_reduce {s : Stack} (hs : Linked s) {ts : List Token} {r : Rule}
    (move : s.state.move? (.ofTokens ts) = some (.reduce r)) (inner : r.head ≠ .start) :
    s.verdict ts = (s.reduce r).verdict ts := by
  refine verdict_congr fun leaf => ?_
  rw [hs.feed_eq]
  simp only [move, inner, if_false]

/-- With the body of a rule on top, the head takes its place. -/
theorem reduce_frames {frames : List Frame} {s : Stack} {r : Rule}
    (h : frames.reverse.map Frame.symbol = r.body) :
    Stack.reduce (frames ++ s) r =
      s.push r.head (r.head.assemble (frames.reverse.flatMap Frame.parts)) := by
  have len : r.body.length = frames.length := by
    rw [← h, List.length_map, List.length_reverse]
  simp only [reduce, contribution, len, List.take_left, List.drop_left]

end Stack

/-! ## The derivation drives the parser -/

/-- The lookahead after a row of tokens may follow the symbol that ends it. -/
theorem DerivesAll.lookahead_mem_follow {number dot : Nat} {r : Rule} {n : Nonterminal}
    {xs : List Symbol} {v rest : List Token} {parts : List ParseTree}
    (hr : Rule.all[number]? = some r) (split : r.body.drop dot = .phrase n :: xs)
    (derived : DerivesAll xs v parts) (follows : (Lookahead.ofTokens rest).index ∈ r.head.follow) :
    (Lookahead.ofTokens (v ++ rest)).index ∈ n.follow := by
  have body := Rule.mem_bodies hr
  cases xs with
  | nil =>
      cases derived
      refine Nonterminal.mem_follow_of_last body ?_ follows
      have last : (r.body.drop dot).getLast? = some (.phrase n) := by rw [split]; rfl
      rw [← List.take_append_drop dot r.body, List.getLast?_append, last]
      rfl
  | cons y ys =>
      have nonempty := derived.ne_nil (List.cons_ne_nil _ _)
      cases v with
      | nil => exact absurd rfl nonempty
      | cons t v =>
          have first := derived.first_mem y rfl t rfl
          rw [← List.take_append_drop dot r.body, split] at body
          exact Nonterminal.mem_follow_of_neighbour body first

mutual

/-- A stack that waits for a symbol reads any derivation of it. -/
theorem Derives.verdict_eq {x : Symbol} {w : List Token} {parts : List ParseTree} :
    Derives x w parts → ∀ ⦃s : Stack⦄ ⦃rest : List Token⦄ ⦃i : Nat⦄, s.Linked → i ∈ s.state →
      i ∈ Item.before x →
      (∀ n, x = .phrase n → (Lookahead.ofTokens rest).index ∈ n.follow) →
        s.verdict (w ++ rest) = (s.push x parts).verdict rest
  | .token t => by
      intro s rest i hs hi hx _
      have answer : s.feed (.terminal t.terminal) [.leaf t] =
          .taken (s.push (.terminal t.terminal) [.leaf t]) := by
        rw [hs.feed_eq]
        simp only [State.move?_of_awaited hi hx]
      rw [List.singleton_append, Stack.verdict, answer]
  | @Derives.phrase n body w parts hb all => by
      intro s rest i hs hi hx follows
      have inner : n ≠ .start := by
        rintro rfl
        exact Item.not_mem_before_start hx
      obtain ⟨number, hr⟩ := Rule.exists_number hb
      have opened := hs.opened hi hx (Stack.code_mem_openItems hr)
      obtain ⟨frames, linked, symbols, trees, final, same⟩ :=
        all.verdict_eq hs hr (Nat.zero_le _) opened List.drop_zero (follows n rfl)
      have move := linked.decided.move?_eq hr final (follows n rfl)
      rw [same, linked.verdict_reduce move inner, Stack.reduce_frames symbols, trees]

/-- A stack with a rule under way reads any derivation of the rest of its body. -/
theorem DerivesAll.verdict_eq {xs : List Symbol} {w : List Token} {parts : List ParseTree} :
    DerivesAll xs w parts → ∀ ⦃s : Stack⦄ ⦃rest : List Token⦄ ⦃number dot : Nat⦄ ⦃r : Rule⦄,
      s.Linked → Rule.all[number]? = some r → dot ≤ r.body.length →
      Item.code number dot ∈ s.state → r.body.drop dot = xs →
      (Lookahead.ofTokens rest).index ∈ r.head.follow →
        ∃ frames : List Frame, Stack.Linked (frames ++ s) ∧
          frames.reverse.map Frame.symbol = xs ∧ frames.reverse.flatMap Frame.parts = parts ∧
          Item.code number r.body.length ∈ Stack.state (frames ++ s) ∧
          s.verdict (w ++ rest) = Stack.verdict (frames ++ s) rest
  | .nil => by
      intro s rest number dot r hs hr hd hi split _
      obtain rfl : dot = r.body.length :=
        Nat.le_antisymm hd (List.drop_eq_nil_iff.mp split)
      exact ⟨[], hs, rfl, rfl, hi, rfl⟩
  | @DerivesAll.cons x xs w v parts more one others => by
      intro s rest number dot r hs hr hd hi split follows
      have next : r.body[dot]? = some x := by
        rw [← List.head?_drop, split]
        rfl
      have hx := (Item.code_mem_before hr hd).mpr next
      have split' : r.body.drop (dot + 1) = xs := by
        rw [← List.tail_drop, split]
        rfl
      have here := one.verdict_eq hs hi hx (by
        rintro n rfl
        exact others.lookahead_mem_follow hr split follows)
      obtain ⟨frames, linked, symbols, trees, final, same⟩ :=
        others.verdict_eq (hs.push parts hi hx) hr (List.getElem?_eq_some_iff.mp next).1
          (State.succ_mem_goto hi hx) split' follows
      have shape : (frames ++ [⟨x, parts, s.state.goto x⟩]) ++ s = frames ++ s.push x parts :=
        List.append_assoc ..
      refine ⟨frames ++ [⟨x, parts, s.state.goto x⟩], ?_, ?_, ?_, ?_, ?_⟩
      · rw [shape]
        exact linked
      · simp [symbols]
      · simp [trees]
      · rw [shape]
        exact final
      · rw [shape, List.append_assoc, here, same]

end

/-! ## The verdict on a whole text -/

namespace Stack

theorem verdict_of_derives {w : List Token} {trees : List ParseTree}
    (h : Derives (.phrase .start) w trees) : verdict [] w = some trees := by
  cases h with
  | @phrase _ body _ parts hb all =>
      obtain ⟨number, hr⟩ := Rule.exists_number hb
      have follows : (Lookahead.ofTokens []).index ∈ Nonterminal.start.follow :=
        Nonterminal.end_mem_follow
      obtain ⟨frames, linked, symbols, rfl, final, same⟩ :=
        @DerivesAll.verdict_eq _ _ _ all [] [] number 0 _ trivial hr (Nat.zero_le _)
          (code_mem_openItems hr) List.drop_zero follows
      have move := linked.decided.move?_eq hr final follows
      rw [List.append_nil] at linked move same
      have length : body.length = frames.length := by
        rw [← symbols, List.length_map, List.length_reverse]
      have whole : contribution frames ⟨.start, body⟩ =
          Nonterminal.start.assemble (frames.reverse.flatMap Frame.parts) := by
        simp only [contribution, length, List.take_length]
      have answer : Stack.feed frames .endOfText [] =
          .accepted (Nonterminal.start.assemble (frames.reverse.flatMap Frame.parts)) := by
        rw [linked.feed_eq]
        simp only [Lookahead.ofTokens] at move
        simp only [move, if_true, whole]
      rw [List.append_nil] at same
      rw [same, verdict, answer]

/-- What is read goes on with what has been read. -/
theorem Linked.derives_of_verdict {trees : List ParseTree} :
    ∀ {ts : List Token} {s : Stack} {w : List Token}, Linked s → Spells s w →
      s.verdict ts = some trees → Derives (.phrase .start) (w ++ ts) trees
  | [], s, w, hs, hw, h => by
      have sound := @Linked.feed_sound .endOfText [] w [] nofun s hs hw
      rw [verdict] at h
      split at h
      next accepted answer =>
          obtain rfl := Option.some.inj h
          rw [answer] at sound
          rw [List.append_nil]
          exact sound.2
      next => cases h
  | t :: ts, s, w, hs, hw, h => by
      have leaf : ∀ u, Lookahead.terminal t.terminal = .terminal u →
          Derives (.terminal u) [t] [.leaf t] := by
        rintro u ⟨⟩
        exact .token t
      have sound := Linked.feed_sound leaf s hs hw
      rw [verdict] at h
      split at h
      next s' answer =>
          rw [answer] at sound
          have rest := sound.1.derives_of_verdict sound.2.1 h
          rwa [List.append_assoc] at rest
      next => cases h

/-- The verdict on a text is the tree of its derivation. -/
theorem verdict_eq_some_iff {w : List Token} {trees : List ParseTree} :
    verdict [] w = some trees ↔ Derives (.phrase .start) w trees := by
  constructor
  · intro h
    exact @Linked.derives_of_verdict trees w [] [] trivial .nil h
  · exact verdict_of_derives

end Stack

/-! ## Runs without a fault -/

namespace Run

theorem finish_eq_accepted_iff {s : Stack} {last : Option Token} {trees : List ParseTree} :
    finish s last = .accepted trees ↔ s.verdict [] = some trees := by
  rw [finish, Stack.verdict]
  cases s.feed .endOfText [] <;> simp

theorem readableTokens_token {t : Token} {ps : List Piece} {ts : List Token} :
    readableTokens (.token t :: ps) = .ok ts ↔
      ∃ rest, readableTokens ps = .ok rest ∧ t :: rest = ts := by
  rw [readableTokens]
  cases readableTokens ps <;> simp [Except.map]

/-- A run without a fault is a verdict on readable tokens, and the other way
round.  Nothing is asked of the stack: the two read it in the same way. -/
theorem steps_clean_iff {trees : List ParseTree} {last : Option Token} :
    ∀ {pieces : List Piece} {s : Stack},
      ((∀ e ∈ (steps s pieces).1, e.fault? = none) ∧
          finish (steps s pieces).2 last = .accepted trees) ↔
        ∃ ts, readableTokens pieces = .ok ts ∧ s.verdict ts = some trees
  | [], s => by
      simp [steps, readableTokens, finish_eq_accepted_iff]
  | .blank _ _ :: ps, s => by
      simpa [steps, step, Event.fault?, readableTokens] using @steps_clean_iff trees last ps s
  | .comment _ _ :: ps, s => by
      simpa [steps, step, Event.fault?, readableTokens] using @steps_clean_iff trees last ps s
  | .unreadable u :: ps, s => by
      simp [steps, step, Event.fault?, readableTokens]
  | .token t :: ps, s => by
      cases answer : s.feed (.terminal t.terminal) [.leaf t] with
      | taken s' =>
          simpa [steps, step, Event.fault?, readableTokens_token, Stack.verdict, answer] using
            @steps_clean_iff trees last ps s'
      | accepted _ =>
          simp [steps, step, Event.fault?, readableTokens_token, Stack.verdict, answer]
      | refused _ =>
          simp [steps, step, Event.fault?, readableTokens_token, Stack.verdict, answer]
      | stuck => simp [steps, step, Event.fault?, readableTokens_token, Stack.verdict, answer]

end Run

end PvsIndex
