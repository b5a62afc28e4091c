import PvsIndex.Grammar.Item

/-!
# States of the parser

A state is the set of items that may be under way.  It is *closed*: with an
item whose dot stands before a phrase, the state also has the fronts of all
rules that the phrase opens with.  Reading a symbol moves the dots that stand
before it and closes the result (`State.goto`), so states need no list: each
is computed from the one before.

`State.move?` is the parser's only decision.  A terminal that some item waits
for is read; otherwise a rule that has been read to its end is recognised,
provided its phrase may be followed by what stands ahead; otherwise there is
no move.  No state of this grammar has two rules at their end, nor one at its
end that may be followed by a terminal another item waits for.
-/

namespace PvsIndex

/-- A set of items. -/
abbrev State := BitSet

/-- What the parser does next: read the terminal ahead, or recognise a rule. -/
inductive Move where
  | shift (t : Terminal)
  | reduce (r : Rule)
deriving DecidableEq

namespace State

/-- Add the fronts of all phrases that items of `kernel` wait for. -/
def close (kernel : BitSet) : State :=
  Nonterminal.all.foldl (fun (s : State) (n : Nonterminal) =>
    if (kernel.inter (Item.before n)).isEmpty then s else s.union (Item.openItems n)) kernel

theorem mem_close {kernel : BitSet} {k : Nat} :
    k ∈ close kernel ↔
      k ∈ kernel ∨ ∃ n : Nonterminal, (∃ i ∈ kernel, i ∈ Item.before n) ∧ k ∈ Item.openItems n := by
  suffices ∀ (ns : List Nonterminal) (s : State),
      k ∈ ns.foldl (fun (s : State) (n : Nonterminal) =>
          if (kernel.inter (Item.before n)).isEmpty then s else s.union (Item.openItems n)) s ↔
        k ∈ s ∨ ∃ n ∈ ns, (∃ i ∈ kernel, i ∈ Item.before n) ∧ k ∈ Item.openItems n by
    have := this Nonterminal.all kernel
    simpa [close, Nonterminal.mem_all] using this
  intro ns
  induction ns with
  | nil => simp
  | cons n ns ih =>
    intro s
    rw [List.foldl_cons, ih]
    cases h : (kernel.inter (Item.before n)).isEmpty with
    | true =>
      have none_waits : ¬ ∃ i ∈ kernel, i ∈ Item.before n := by
        rintro ⟨i, hi, hn⟩
        have := BitSet.isEmpty_eq_false_iff.mpr ⟨i, BitSet.mem_inter.mpr ⟨hi, hn⟩⟩
        rw [h] at this
        cases this
      simp [none_waits]
    | false =>
      obtain ⟨i, hi⟩ := BitSet.isEmpty_eq_false_iff.mp h
      have waits : ∃ i ∈ kernel, i ∈ Item.before n := ⟨i, BitSet.mem_inter.mp hi⟩
      simp [waits, or_assoc]

/-- The state in which a text begins. -/
def initial : State :=
  Item.openItems .start

/-- The state after reading the symbol `x`. -/
def goto (s : State) (x : Symbol) : State :=
  close (s.inter (Item.before x)).succ

theorem mem_goto {s : State} {x : Symbol} {k : Nat} :
    k ∈ s.goto x ↔
      (∃ i ∈ s, i ∈ Item.before x ∧ k = i + 1) ∨
        ∃ n : Nonterminal,
          (∃ i ∈ s, i ∈ Item.before x ∧ i + 1 ∈ Item.before n) ∧ k ∈ Item.openItems n := by
  simp only [goto, mem_close, BitSet.mem_succ, BitSet.mem_inter]
  constructor
  · rintro (⟨i, ⟨hs, hx⟩, rfl⟩ | ⟨n, ⟨_, ⟨i, ⟨hs, hx⟩, rfl⟩, hn⟩, hk⟩)
    · exact .inl ⟨i, hs, hx, rfl⟩
    · exact .inr ⟨n, ⟨i, hs, hx, hn⟩, hk⟩
  · rintro (⟨i, hs, hx, rfl⟩ | ⟨n, ⟨i, hs, hx, hn⟩, hk⟩)
    · exact .inl ⟨i, ⟨hs, hx⟩, rfl⟩
    · exact .inr ⟨n, ⟨i + 1, ⟨i, ⟨hs, hx⟩, rfl⟩, hn⟩, hk⟩

/-- The terminal ahead, if some item waits for it.  Nothing waits for the end. -/
def awaited? (s : State) : Lookahead → Option Terminal
  | .terminal t => if (s.inter (Item.before t)).isEmpty then none else some t
  | .endOfText => none

/-- The rule that has been read to its end and may be followed by `a`. -/
def finished? (s : State) (a : Lookahead) : Option Rule :=
  (s.inter (Item.closedAt a)).max?.bind Item.ruleOf?

/-- The move on the lookahead `a`. -/
def move? (s : State) (a : Lookahead) : Option Move :=
  match s.awaited? a with
  | some t => some (.shift t)
  | none => (s.finished? a).map .reduce

/-- The lookaheads on which there is a move. -/
def expected (s : State) : List Lookahead :=
  Lookahead.all.filter fun a => (s.move? a).isSome

end State

end PvsIndex
