import PvsIndex.Grammar.Derivation

/-!
# Rows of derivations

How derivations of several symbols are put together and taken apart, that
nothing is derived from no tokens, and that of the tokens only their terminals
matter.
-/

namespace PvsIndex

theorem Nonterminal.bodies_ne_nil {n : Nonterminal} {body : List Symbol} (h : body ∈ n.bodies) :
    body ≠ [] := by
  rintro rfl
  cases n <;> revert h <;> decide

mutual

theorem Derives.ne_nil {x : Symbol} {w : List Token} {parts : List ParseTree} :
    Derives x w parts → w ≠ []
  | .token _ => List.cons_ne_nil _ _
  | .phrase hb all => all.ne_nil (Nonterminal.bodies_ne_nil hb)

theorem DerivesAll.ne_nil {xs : List Symbol} {w : List Token} {parts : List ParseTree} :
    DerivesAll xs w parts → xs ≠ [] → w ≠ []
  | .nil, h => absurd rfl h
  | .cons one _, _ => fun h => one.ne_nil (List.append_eq_nil_iff.mp h).1

end

theorem Derives.of_terminal {k : Terminal} {w : List Token} {parts : List ParseTree}
    (h : Derives (.terminal k) w parts) : ∃ t, t.terminal = k ∧ w = [t] ∧ parts = [.leaf t] := by
  cases h with
  | token t => exact ⟨t, rfl, rfl, rfl⟩

namespace DerivesAll

theorem single {x : Symbol} {w : List Token} {parts : List ParseTree} (h : Derives x w parts) :
    DerivesAll [x] w parts := by
  simpa using DerivesAll.cons h .nil

theorem of_single {x : Symbol} {w : List Token} {parts : List ParseTree}
    (h : DerivesAll [x] w parts) : Derives x w parts := by
  cases h with
  | cons one rest =>
      cases rest
      simpa using one

theorem append : ∀ {xs ys : List Symbol} {w v : List Token} {parts more : List ParseTree},
    DerivesAll xs w parts → DerivesAll ys v more → DerivesAll (xs ++ ys) (w ++ v) (parts ++ more)
  | [], _, _, _, _, _, .nil, second => second
  | _ :: _, _, _, _, _, _, .cons one rest, second => by
      simpa using DerivesAll.cons one (rest.append second)

theorem split : ∀ {xs ys : List Symbol} {w : List Token} {parts : List ParseTree},
    DerivesAll (xs ++ ys) w parts →
      ∃ w₁ w₂ parts₁ parts₂, w = w₁ ++ w₂ ∧ parts = parts₁ ++ parts₂ ∧
        DerivesAll xs w₁ parts₁ ∧ DerivesAll ys w₂ parts₂
  | [], _, w, parts, h => ⟨[], w, [], parts, rfl, rfl, .nil, h⟩
  | _ :: _, _, _, _, .cons one rest => by
      obtain ⟨w₁, w₂, parts₁, parts₂, rfl, rfl, first, second⟩ := rest.split
      exact ⟨_, w₂, _, parts₂, by simp, by simp, .cons one first, second⟩

end DerivesAll

mutual

/-- Of the tokens only their terminals matter. -/
theorem Derives.of_terminals {x : Symbol} {w : List Token} {parts : List ParseTree} :
    Derives x w parts → ∀ ⦃w' : List Token⦄, w'.map Token.terminal = w.map Token.terminal →
      ∃ parts', Derives x w' parts'
  | .token t, w', same => by
      obtain ⟨t', rfl, terminal⟩ := List.map_eq_singleton_iff.mp same
      rw [← terminal]
      exact ⟨_, .token t'⟩
  | .phrase hb all, w', same => by
      obtain ⟨parts', derived⟩ := all.of_terminals same
      exact ⟨_, .phrase hb derived⟩

/-- Of the tokens only their terminals matter. -/
theorem DerivesAll.of_terminals {xs : List Symbol} {w : List Token} {parts : List ParseTree} :
    DerivesAll xs w parts → ∀ ⦃w' : List Token⦄, w'.map Token.terminal = w.map Token.terminal →
      ∃ parts', DerivesAll xs w' parts'
  | .nil, w', same => by
      obtain rfl := List.map_eq_nil_iff.mp same
      exact ⟨_, .nil⟩
  | .cons one rest, w', same => by
      rw [List.map_append] at same
      obtain ⟨v, v', rfl, first, second⟩ := List.map_eq_append_iff.mp same
      obtain ⟨_, here⟩ := one.of_terminals first
      obtain ⟨_, behind⟩ := rest.of_terminals second
      exact ⟨_, .cons here behind⟩

end

end PvsIndex
