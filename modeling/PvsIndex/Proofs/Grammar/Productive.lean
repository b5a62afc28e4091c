import PvsIndex.Proofs.Grammar.Lookahead

/-!
# Every phrase can be written

A grammar may have phrases that no tokens write, and then a row of tokens could
be a good beginning with no possible end.  This one has none.  The phrases that
can be written are found in rounds: a phrase counts as soon as one of its bodies
consists of terminals and of phrases that counted in the round before.
`mem_writable` says that all of them count in the end, and `exists_derives`
turns this into tokens.

So what is left of a body can always be added, and what a phrase opens with
begins some way of writing it (`Derives.of_openings`).
-/

namespace PvsIndex

namespace Nonterminal

/-- Are all phrases of a body known? -/
def isKnown (known : BitSet) (body : List Symbol) : Bool :=
  body.all fun
    | .terminal _ => true
    | .phrase n => known.contains n.index

/-- The phrases that can be written, as far as a number of rounds tells. -/
def writable : Nat → BitSet
  | 0 => .empty
  | rounds + 1 =>
    .ofList <| (all.filter fun n => n.bodies.any (isKnown (writable rounds))).map index

/-- More rounds than the expressions have levels. -/
def writableRounds : Nat := 20

theorem mem_writable (n : Nonterminal) : n.index ∈ writable writableRounds := by
  have found : ∀ n ∈ all, n.index ∈ writable writableRounds := by decide +kernel
  exact found n n.mem_all

end Nonterminal

theorem DerivesAll.exists_of_each : ∀ {body : List Symbol},
    (∀ n, Symbol.phrase n ∈ body → ∃ w parts, Derives (.phrase n) w parts) →
      ∃ w parts, DerivesAll body w parts
  | [], _ => ⟨_, _, .nil⟩
  | x :: body, each => by
      obtain ⟨v, more, rest⟩ := @exists_of_each body fun n hn => each n (List.mem_cons_of_mem _ hn)
      cases x with
      | terminal k => exact ⟨_, _, .cons (.token ⟨.start, k, []⟩) rest⟩
      | phrase n =>
          obtain ⟨w, parts, one⟩ := each n List.mem_cons_self
          exact ⟨_, _, .cons one rest⟩

theorem Nonterminal.exists_derives_of_writable : ∀ {rounds : Nat} {n : Nonterminal},
    n.index ∈ writable rounds → ∃ w parts, Derives (.phrase n) w parts
  | 0, _, h => by simp [writable] at h
  | rounds + 1, n, h => by
      obtain ⟨m, hm, same⟩ := List.mem_map.mp (BitSet.mem_ofList.mp h)
      obtain rfl := index_inj same
      obtain ⟨body, hb, known⟩ := List.any_eq_true.mp (List.mem_filter.mp hm).2
      have each : ∀ p, Symbol.phrase p ∈ body → ∃ w parts, Derives (.phrase p) w parts := by
        intro p hp
        exact exists_derives_of_writable (List.all_eq_true.mp known _ hp)
      obtain ⟨w, parts, derived⟩ := DerivesAll.exists_of_each each
      exact ⟨w, _, .phrase hb derived⟩

/-- Every phrase can be written. -/
theorem Nonterminal.exists_derives (n : Nonterminal) : ∃ w parts, Derives (.phrase n) w parts :=
  exists_derives_of_writable n.mem_writable

/-- Every row of symbols can be written. -/
theorem DerivesAll.exists (xs : List Symbol) : ∃ w parts, DerivesAll xs w parts :=
  exists_of_each fun n _ => n.exists_derives

/-- What a phrase opens with begins some way of writing it. -/
theorem Derives.of_openings {m n : Nonterminal} (h : m.index ∈ n.openings) {w : List Token}
    {parts : List ParseTree} (derived : Derives (.phrase m) w parts) :
    ∃ more trees, Derives (.phrase n) (w ++ more) trees := by
  rw [Nonterminal.mem_openings] at h
  -- the chain of openings is followed from its end, where the tokens are
  induction h using Relation.ReflTransGen.head_induction_on with
  | refl => exact ⟨[], parts, by rwa [List.append_nil]⟩
  | head front _ ih =>
      obtain ⟨more, _, inner⟩ := ih
      obtain ⟨xs, hb⟩ := Nonterminal.mem_fronts.mp front
      obtain ⟨rest, _, others⟩ := DerivesAll.exists xs
      have outer := Derives.phrase hb (.cons inner others)
      rw [List.append_assoc] at outer
      exact ⟨more ++ rest, _, outer⟩

end PvsIndex
