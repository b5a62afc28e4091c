import Mathlib.Data.List.Basic
import PvsIndex.Proofs.Declaration.Scan
import PvsIndex.Proofs.Grammar.Derivation

/-!
# What the scan sees of a phrase

Facts about the tokens of a derived phrase, whatever the derivation: which
tokens stand in it, how its brackets balance, what it ends with, and that a
part of a theory goes on over it.  Each is an induction over derivations whose
step looks at the bodies of the grammar, one phrase at a time, and is decided.

A phrase is *plain* if no type and no formula is declared anywhere in it, and
*inner* if no keyword that structures a theory stands in it either.
Expressions, types and bindings are inner, and so are the declarations of
constants and variables.
-/

namespace PvsIndex

/-! ## Classes of symbols -/

mutual

/-- The tokens of a phrase belong to every class that the phrase belongs to. -/
theorem Derives.mem_class {C : Symbol → Bool}
    (closed : ∀ n, C (.phrase n) = true → ∀ body ∈ n.bodies, ∀ y ∈ body, C y = true)
    {x : Symbol} {w : List Token} {parts : List ParseTree} :
    Derives x w parts → C x = true → ∀ t ∈ w, C (.terminal t.terminal) = true
  | .token t, hx, u, hu => by
      obtain rfl : u = t := by simpa using hu
      exact hx
  | .phrase hb all, hx, u, hu => all.mem_class closed (closed _ hx _ hb) u hu

theorem DerivesAll.mem_class {C : Symbol → Bool}
    (closed : ∀ n, C (.phrase n) = true → ∀ body ∈ n.bodies, ∀ y ∈ body, C y = true)
    {xs : List Symbol} {w : List Token} {parts : List ParseTree} :
    DerivesAll xs w parts → (∀ x ∈ xs, C x = true) → ∀ t ∈ w, C (.terminal t.terminal) = true
  | .nil, _, _, hu => by cases hu
  | .cons one others, hx, u, hu => by
      rcases List.mem_append.mp hu with hu | hu
      · exact one.mem_class closed (hx _ List.mem_cons_self) u hu
      · exact others.mem_class closed (fun x h => hx x (List.mem_cons_of_mem _ h)) u hu

end

mutual

/-- The first token of a phrase belongs to every class that goes over to first
symbols. -/
theorem Derives.head_class {C : Symbol → Bool}
    (closed : ∀ n, C (.phrase n) = true → ∀ body ∈ n.bodies, ∀ y ∈ body.head?, C y = true)
    {x : Symbol} {w : List Token} {parts : List ParseTree} :
    Derives x w parts → C x = true → ∀ t ∈ w.head?, C (.terminal t.terminal) = true
  | .token t, hx, u, hu => by
      obtain rfl : t = u := by simpa using hu
      exact hx
  | .phrase hb all, hx, u, hu => all.head_class closed (closed _ hx _ hb) u hu

theorem DerivesAll.head_class {C : Symbol → Bool}
    (closed : ∀ n, C (.phrase n) = true → ∀ body ∈ n.bodies, ∀ y ∈ body.head?, C y = true)
    {xs : List Symbol} {w : List Token} {parts : List ParseTree} :
    DerivesAll xs w parts → (∀ x ∈ xs.head?, C x = true) →
      ∀ t ∈ w.head?, C (.terminal t.terminal) = true
  | .nil, _, _, hu => by cases hu
  | .cons one _, hx, u, hu => by
      rw [List.head?_append_of_ne_nil _ one.ne_nil] at hu
      exact one.head_class closed (hx _ rfl) u hu

end

mutual

/-- The last token of a phrase belongs to every class that goes over to last
symbols. -/
theorem Derives.last_class {C : Symbol → Bool}
    (closed : ∀ n, C (.phrase n) = true → ∀ body ∈ n.bodies, ∀ y ∈ body.getLast?, C y = true)
    {x : Symbol} {w : List Token} {parts : List ParseTree} :
    Derives x w parts → C x = true → ∀ t ∈ w.getLast?, C (.terminal t.terminal) = true
  | .token t, hx, u, hu => by
      obtain rfl : t = u := by simpa using hu
      exact hx
  | .phrase hb all, hx, u, hu => all.last_class closed (closed _ hx _ hb) u hu

theorem DerivesAll.last_class {C : Symbol → Bool}
    (closed : ∀ n, C (.phrase n) = true → ∀ body ∈ n.bodies, ∀ y ∈ body.getLast?, C y = true)
    {xs : List Symbol} {w : List Token} {parts : List ParseTree} :
    DerivesAll xs w parts → (∀ x ∈ xs.getLast?, C x = true) →
      ∀ t ∈ w.getLast?, C (.terminal t.terminal) = true
  | .nil, _, _, hu => by cases hu
  | @DerivesAll.cons x [] _ _ _ _ one .nil, hx, u, hu => by
      rw [List.append_nil] at hu
      exact one.last_class closed (hx x rfl) u hu
  | @DerivesAll.cons x (y :: ys) w v _ _ one others, hx, u, hu => by
      rw [List.getLast?_append_of_ne_nil _ (others.ne_nil (List.cons_ne_nil _ _))] at hu
      exact others.last_class closed (by simpa [List.getLast?_cons_cons] using hx) u hu

end

namespace Symbol

/-- No type and no formula is declared in the symbol. -/
def isPlain : Symbol → Bool
  | terminal t => t.announces? ≠ some .formula
  | phrase n =>
    match n with
    | .start | .theories | .theory | .theoryParts | .theoryPart | .typeDeclaration
    | .formulaDeclaration | .formulaKeyword => false
    | _ => true

/-- The symbol is plain, and it has no keyword that structures a theory. -/
def isInner : Symbol → Bool
  | terminal t => t.announces? = none ∧ t ≠ .keyword .END ∧ t ≠ .keyword .IMPORTING
  | phrase n =>
    match n with
    | .theoryFormals | .theoryFormal | .moreFormals | .typeKind | .importing => false
    | n => isPlain (.phrase n)

/-- Nothing is announced in the symbol. -/
def isSilent : Symbol → Bool
  | terminal t => t.announces? = none
  | phrase n => isInner (.phrase n) || n = .importing

/-- The symbol begins as a theory part does, or as what comes after the last one. -/
def opensPart : Symbol → Bool
  | terminal t => t = .ident ∨ t = .keyword .IMPORTING ∨ t = .keyword .END
  | phrase n =>
    match n with
    | .identifier | .theory | .importing | .typeDeclaration | .formulaDeclaration
    | .constDeclaration | .varDeclaration | .theoryPart => true
    | _ => false

/-- The symbol does not begin with a name. -/
def isNameless : Symbol → Bool
  | terminal t => t ≠ .ident
  | phrase n =>
    match n with
    | .typeDefinition | .constDefinition | .bindingGroup | .bindingGroups | .actuals
    | .moreNames | .moreTheoryNames | .moreBindings | .moreActuals | .moreTypes | .moreExprs
    | .elsifBranches => true
    | _ => false

theorem isPlain_closed (n : Nonterminal) (h : isPlain (.phrase n) = true) :
    ∀ body ∈ n.bodies, ∀ y ∈ body, isPlain y = true := by
  cases n <;> revert h <;> decide

theorem isInner_closed (n : Nonterminal) (h : isInner (.phrase n) = true) :
    ∀ body ∈ n.bodies, ∀ y ∈ body, isInner y = true := by
  cases n <;> revert h <;> decide

theorem isSilent_closed (n : Nonterminal) (h : isSilent (.phrase n) = true) :
    ∀ body ∈ n.bodies, ∀ y ∈ body, isSilent y = true := by
  cases n <;> revert h <;> decide

theorem opensPart_closed (n : Nonterminal) (h : opensPart (.phrase n) = true) :
    ∀ body ∈ n.bodies, ∀ y ∈ body.head?, opensPart y = true := by
  cases n <;> revert h <;> decide

theorem isNameless_closed (n : Nonterminal) (h : isNameless (.phrase n) = true) :
    ∀ body ∈ n.bodies, ∀ y ∈ body.head?, isNameless y = true := by
  cases n <;> revert h <;> decide

theorem ne_comma_closed (n : Nonterminal) :
    ∀ body ∈ n.bodies, ∀ y ∈ body.getLast?, decide (y ≠ .terminal (.mark .comma)) = true := by
  cases n <;> decide

end Symbol

/-- A silent symbol has no token that announces anything. -/
theorem Derives.silent {x : Symbol} {w : List Token} {parts : List ParseTree}
    (h : Derives x w parts) (hx : x.isSilent = true) :
    ∀ t ∈ w, t.terminal.announces? = none := by
  intro t ht
  have silent := h.mem_class Symbol.isSilent_closed hx t ht
  simpa [Symbol.isSilent] using silent

/-- No phrase ends with a comma. -/
theorem Derives.last_ne_comma {n : Nonterminal} {w : List Token} {parts : List ParseTree}
    (h : Derives (.phrase n) w parts) : ∀ t ∈ w.getLast?, t.terminal ≠ .mark .comma := by
  intro t ht
  have other := h.last_class (C := fun y => decide (y ≠ .terminal (.mark .comma)))
    (fun n _ => Symbol.ne_comma_closed n) (by simp) t ht
  simpa using other

/-! ## Brackets in a phrase -/

/-- What a symbol adds to the number of open brackets. -/
def Symbol.shift (b : Bracket) : Symbol → Int
  | terminal t => b.shift t
  | phrase _ => 0

/-- From `k` open brackets, these symbols come to none, and never below. -/
def settles (b : Bracket) (k : Int) : List Symbol → Bool
  | [] => k = 0
  | x :: xs => 0 ≤ k && settles b (k + x.shift b) xs

theorem settles_nonneg {b : Bracket} {k : Int} {xs : List Symbol} (h : settles b k xs = true) :
    0 ≤ k := by
  cases xs with
  | nil =>
      have zero : k = 0 := by simpa [settles] using h
      omega
  | cons x xs =>
      simp only [settles, Bool.and_eq_true, decide_eq_true_eq] at h
      exact h.1

theorem Nonterminal.bodies_settle (b : Bracket) (n : Nonterminal) :
    ∀ body ∈ n.bodies, settles b 0 body = true := by
  cases b <;> cases n <;> decide

mutual

/-- The brackets of a phrase balance, and none is closed before it is opened. -/
theorem Derives.level (b : Bracket) {x : Symbol} {w : List Token} {parts : List ParseTree} :
    Derives x w parts →
      b.level w = x.shift b ∧ ∀ p, p <+: w → 0 ≤ b.level p ∨ b.level p = x.shift b
  | .token t => by
      have total : b.level [t] = b.shift t.terminal := by simp [Bracket.level]
      refine ⟨total, ?_⟩
      intro p hp
      rcases List.prefix_cons_iff.mp hp with rfl | ⟨q, rfl, hq⟩
      · exact Or.inl (Int.le_refl 0)
      · obtain rfl := List.prefix_nil.mp hq
        exact Or.inr total
  | @Derives.phrase n _ _ _ hb all => by
      obtain ⟨total, steady⟩ := all.level b (n.bodies_settle b _ hb)
      rw [Int.zero_add] at total
      refine ⟨total, fun p hp => Or.inl ?_⟩
      have := steady p hp
      omega

/-- The same for symbols one after the other, with `k` brackets open before. -/
theorem DerivesAll.level (b : Bracket) {xs : List Symbol} {w : List Token}
    {parts : List ParseTree} : DerivesAll xs w parts → ∀ ⦃k : Int⦄, settles b k xs = true →
      k + b.level w = 0 ∧ ∀ p, p <+: w → 0 ≤ k + b.level p
  | .nil => by
      intro k h
      have zero : k = 0 := by simpa [settles] using h
      refine ⟨by simp [zero, Bracket.level], ?_⟩
      intro p hp
      obtain rfl := List.prefix_nil.mp hp
      simp [zero, Bracket.level]
  | @DerivesAll.cons x xs w v _ _ one others => by
      intro k h
      obtain ⟨start, rest⟩ : 0 ≤ k ∧ settles b (k + x.shift b) xs = true := by
        simpa [settles] using h
      obtain ⟨total, steady⟩ := one.level b
      obtain ⟨total', steady'⟩ := others.level b rest
      refine ⟨by rw [Bracket.level_append]; omega, ?_⟩
      intro p hp
      obtain ⟨r, split⟩ := hp
      rcases List.append_eq_append_iff.mp split with ⟨q, hw, _⟩ | ⟨q, rfl, hv⟩
      · have past := settles_nonneg rest
        rcases steady p ⟨q, hw.symm⟩ with up | same
        · omega
        · omega
      · have := steady' q ⟨r, hv.symm⟩
        rw [Bracket.level_append]
        omega

end

/-- Outside of all brackets before a phrase is outside after it. -/
theorem Derives.stays_outside {n : Nonterminal} {w : List Token} {parts : List ParseTree}
    (h : Derives (.phrase n) w parts) {earlier : List Token} (outside : isOutside earlier = true) :
    isOutside (w.reverse ++ earlier) = true := by
  rw [isOutside_iff] at outside ⊢
  intro b
  rw [Bracket.level_append, Bracket.level_reverse, (h.level b).1, outside b]
  rfl

/-! ## A part goes on over an inner phrase -/

namespace Symbol

/-- How far a part has come after an inner symbol. -/
def progress : Symbol → Progress
  | terminal t => Progress.underWay.after t
  | phrase _ => .complete

/-- No name begins where a part may be complete. -/
def isChained : List Symbol → Bool
  | x :: y :: xs => (x.progress = .underWay || y.isNameless) && isChained (y :: xs)
  | _ => true

theorem progress_ne_atType {x : Symbol} (h : x.isInner = true) : x.progress ≠ .atType := by
  cases x with
  | phrase n => nofun
  | terminal t =>
      intro at_type
      obtain rfl : t = .keyword .TYPE := by
        simp only [progress, Progress.after] at at_type
        split at at_type
        next same => exact same
        next => split at at_type <;> cases at_type
      revert h
      decide

theorem bodies_chained (n : Nonterminal) (h : isInner (.phrase n) = true) :
    ∀ body ∈ n.bodies, isChained body = true ∧ ∀ y ∈ body.getLast?, y.progress = .complete := by
  cases n <;> revert h <;> decide

end Symbol

theorem Progress.after_eq {m : Progress} (h : m ≠ .atType) (t : Terminal) :
    m.after t = Progress.underWay.after t := by
  simp [after, h]

theorem Progress.stopsAt_inner {m : Progress} {t : Terminal} (hm : m ≠ .atType)
    (inner : Symbol.isInner (.terminal t) = true) (first : m = .complete → t ≠ .ident) :
    m.stopsAt t = false := by
  have apart : t ≠ .keyword .END ∧ t ≠ .keyword .IMPORTING := by
    simp only [Symbol.isInner, decide_eq_true_eq] at inner
    exact inner.2
  unfold stopsAt
  split
  next => exact absurd rfl apart.1
  next => exact absurd rfl apart.2
  next =>
      cases m with
      | underWay => rfl
      | atType => exact absurd rfl hm
      | complete => exact absurd rfl (first rfl)
  next => rfl

mutual

/-- No token of an inner symbol begins a new part, unless its first one does. -/
theorem Derives.unbroken {x : Symbol} {w : List Token} {parts : List ParseTree} :
    Derives x w parts → x.isInner = true → ∀ m : Progress, m ≠ .atType →
      (m = .complete → ∀ t ∈ w.head?, t.terminal ≠ .ident) →
        m.Unbroken w ∧ m.afterAll w = x.progress
  | .token t, inner, m, hm, first => by
      have goes_on := Progress.stopsAt_inner hm inner fun complete => first complete t rfl
      exact ⟨⟨goes_on, trivial⟩, Progress.after_eq hm _⟩
  | .phrase hb all, inner, m, hm, first => by
      obtain ⟨chained, last⟩ := Symbol.bodies_chained _ inner _ hb
      obtain ⟨unbroken, final⟩ :=
        all.unbroken (Symbol.isInner_closed _ inner _ hb) chained m hm first
      refine ⟨unbroken, final.trans ?_⟩
      obtain ⟨y, hy⟩ := Option.isSome_iff_exists.mp
        (List.getLast?_isSome.mpr (Nonterminal.bodies_ne_nil hb))
      rw [hy, Option.map_some, Option.getD_some, last y hy]
      rfl

theorem DerivesAll.unbroken {xs : List Symbol} {w : List Token} {parts : List ParseTree} :
    DerivesAll xs w parts → (∀ x ∈ xs, x.isInner = true) → Symbol.isChained xs = true →
      ∀ m : Progress, m ≠ .atType → (m = .complete → ∀ t ∈ w.head?, t.terminal ≠ .ident) →
        m.Unbroken w ∧ m.afterAll w = (xs.getLast?.map Symbol.progress).getD m
  | .nil, _, _, _, _, _ => ⟨trivial, rfl⟩
  | @DerivesAll.cons x xs w v _ _ one others, inner, chained, m, hm, first => by
      have inner_x := inner x List.mem_cons_self
      have first_x : m = .complete → ∀ t ∈ w.head?, t.terminal ≠ .ident := by
        intro complete t ht
        refine first complete t ?_
        rw [List.head?_append_of_ne_nil _ one.ne_nil]
        exact ht
      obtain ⟨unbroken, final⟩ := one.unbroken inner_x m hm first_x
      have rest := others.unbroken fun y hy => inner y (List.mem_cons_of_mem _ hy)
      cases xs with
      | nil =>
          cases others
          rw [List.append_nil]
          exact ⟨unbroken, final⟩
      | cons y ys =>
          obtain ⟨link, chained'⟩ : (x.progress = .underWay ∨ y.isNameless = true) ∧
              Symbol.isChained (y :: ys) = true := by
            simpa [Symbol.isChained] using chained
          have first_y : x.progress = .complete → ∀ t ∈ v.head?, t.terminal ≠ .ident := by
            intro complete t ht
            have nameless : y.isNameless = true := by
              rcases link with under | nameless
              · rw [under] at complete
                cases complete
              · exact nameless
            have := others.head_class Symbol.isNameless_closed (by simpa using nameless) t ht
            simpa [Symbol.isNameless] using this
          obtain ⟨unbroken', final'⟩ :=
            rest chained' x.progress (Symbol.progress_ne_atType inner_x) first_y
          refine ⟨unbroken.append (final ▸ unbroken'), ?_⟩
          obtain ⟨z, hz⟩ := Option.isSome_iff_exists.mp
            (List.getLast?_isSome.mpr (List.cons_ne_nil y ys))
          rw [Progress.afterAll_append, final, final', List.getLast?_cons_cons, hz]
          rfl

end

end PvsIndex
