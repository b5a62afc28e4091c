import Mathlib.Data.List.Basic
import Mathlib.Logic.Relation
import PvsIndex.Grammar.Follow
import PvsIndex.Proofs.Grammar.Derivation

/-!
# What begins a phrase, and what comes after it

The sets of `Grammar/Follow` are filled by rounds of reachability.  Here they
are read as what they are meant to be:

  * `mem_reach`: the rounds compute the reflexive transitive closure.  Each
    round that is not the last adds a phrase, and there are only so many
    phrases, so the last one has been reached when the rounds are used up;
  * `Derives.first_mem`: the first token of a derived row is in the first set;
  * `mem_follow_of_neighbour`, `mem_follow_of_last` and `end_mem_follow`: the
    three ways in which a lookahead comes to stand after a phrase.

Nothing here looks at a parser.  The completeness of the parser rests on the
last three and on nothing else about lookaheads.
-/

namespace PvsIndex

/-! ## Rounds of reachability -/

namespace Nonterminal

theorem index_inj {m n : Nonterminal} (h : m.index = n.index) : m = n := by
  have found := m.all_index
  rw [h, n.all_index] at found
  exact (Option.some.inj found).symm

section Rounds

variable {leadsTo : Nonterminal → List Nonterminal}

theorem mem_spread {s : BitSet} {k : Nat} :
    k ∈ spread leadsTo s ↔
      k ∈ s ∨ ∃ n : Nonterminal, n.index ∈ s ∧ ∃ m ∈ leadsTo n, m.index = k := by
  suffices ∀ (ns : List Nonterminal) (acc : BitSet),
      k ∈ ns.foldl (fun acc n =>
          if s.contains n.index then acc.union (.ofList ((leadsTo n).map index)) else acc) acc ↔
        k ∈ acc ∨ ∃ n ∈ ns, n.index ∈ s ∧ ∃ m ∈ leadsTo n, m.index = k by
    have := this all s
    simpa [spread, mem_all] using this
  intro ns
  induction ns with
  | nil => simp
  | cons n ns ih =>
      intro acc
      rw [List.foldl_cons, ih]
      by_cases h : n.index ∈ s
      · simp [h, BitSet.mem_ofList, or_assoc]
      · simp [h]

theorem subset_spread {s : BitSet} {k : Nat} (h : k ∈ s) : k ∈ spread leadsTo s :=
  mem_spread.mpr (Or.inl h)

/-- A set of phrases, by their numbers. -/
def IsPhraseSet (s : BitSet) : Prop :=
  ∀ k ∈ s, ∃ n : Nonterminal, n.index = k

theorem IsPhraseSet.spread {s : BitSet} (hs : IsPhraseSet s) :
    IsPhraseSet (Nonterminal.spread leadsTo s) := by
  intro k hk
  rcases mem_spread.mp hk with h | ⟨_, _, m, _, rfl⟩
  · exact hs k h
  · exact ⟨m, rfl⟩

/-- The phrases in a set. -/
def membersOf (s : BitSet) : List Nonterminal :=
  all.filter fun n => s.contains n.index

theorem mem_membersOf {s : BitSet} {n : Nonterminal} : n ∈ membersOf s ↔ n.index ∈ s := by
  simp [membersOf, mem_all]

/-- A round that changes the set adds a phrase. -/
theorem length_membersOf_lt {s : BitSet} (hs : IsPhraseSet s) (h : spread leadsTo s ≠ s) :
    (membersOf s).length < (membersOf (spread leadsTo s)).length := by
  have sub : List.Sublist (membersOf s) (membersOf (spread leadsTo s)) :=
    List.monotone_filter_right all fun _ hn => subset_spread hn
  refine Nat.lt_of_le_of_ne sub.length_le fun same => h ?_
  have eq := sub.eq_of_length same
  refine BitSet.ext fun k => ⟨fun hk => ?_, subset_spread⟩
  obtain ⟨n, rfl⟩ := hs.spread k hk
  rw [← mem_membersOf, eq]
  exact mem_membersOf.mpr hk

theorem spread_spreadWithin : ∀ (rounds : Nat) (s : BitSet), IsPhraseSet s →
    all.length ≤ (membersOf s).length + rounds →
      spread leadsTo (spreadWithin leadsTo rounds s) = spreadWithin leadsTo rounds s
  | 0, s, hs, room => by
      by_contra changed
      have grown := length_membersOf_lt hs changed
      have bound : (membersOf (spread leadsTo s)).length ≤ all.length := List.length_filter_le ..
      omega
  | rounds + 1, s, hs, room => by
      by_cases h : spread leadsTo s = s
      · simp only [spreadWithin, h, if_true]
      · simp only [spreadWithin, h, if_false]
        have grown := length_membersOf_lt hs h
        exact spread_spreadWithin rounds _ hs.spread (by omega)

theorem subset_spreadWithin : ∀ (rounds : Nat) (s : BitSet) {k : Nat},
    k ∈ s → k ∈ spreadWithin leadsTo rounds s
  | 0, _, _, h => h
  | rounds + 1, s, k, h => by
      by_cases fixed : spread leadsTo s = s
      · simpa only [spreadWithin, fixed, if_true] using h
      · simp only [spreadWithin, fixed, if_false]
        exact subset_spreadWithin rounds _ (subset_spread h)

theorem spreadWithin_reaches {n : Nonterminal} : ∀ (rounds : Nat) (s : BitSet),
    (∀ k ∈ s, ∃ m, m.index = k ∧ Relation.ReflTransGen (fun a b => b ∈ leadsTo a) n m) →
    ∀ k ∈ spreadWithin leadsTo rounds s,
      ∃ m, m.index = k ∧ Relation.ReflTransGen (fun a b => b ∈ leadsTo a) n m
  | 0, _, hs => hs
  | rounds + 1, s, hs => by
      by_cases fixed : spread leadsTo s = s
      · simpa only [spreadWithin, fixed, if_true] using hs
      · simp only [spreadWithin, fixed, if_false]
        refine spreadWithin_reaches rounds _ fun k hk => ?_
        rcases mem_spread.mp hk with h | ⟨m, hm, m', led, rfl⟩
        · exact hs k h
        · obtain ⟨m₀, same, reached⟩ := hs _ hm
          exact ⟨m', rfl, reached.tail (index_inj same ▸ led)⟩

/-- The rounds compute reachability. -/
theorem mem_reach {n m : Nonterminal} :
    m.index ∈ reach leadsTo n ↔ Relation.ReflTransGen (fun a b => b ∈ leadsTo a) n m := by
  constructor
  · intro h
    have start : ∀ k ∈ BitSet.singleton n.index,
        ∃ m, m.index = k ∧ Relation.ReflTransGen (fun a b => b ∈ leadsTo a) n m := by
      intro k hk
      exact ⟨n, (BitSet.mem_singleton.mp hk).symm, .refl⟩
    obtain ⟨m', same, reached⟩ := spreadWithin_reaches _ _ start _ h
    exact index_inj same ▸ reached
  · intro h
    induction h with
    | refl => exact subset_spreadWithin _ _ (BitSet.mem_singleton.mpr rfl)
    | tail _ led ih =>
        have fixed := @spread_spreadWithin leadsTo all.length (.singleton n.index)
          (fun k hk => ⟨n, (BitSet.mem_singleton.mp hk).symm⟩) (Nat.le_add_left ..)
        unfold reach at ih ⊢
        rw [← fixed]
        exact mem_spread.mpr (Or.inr ⟨_, ih, _, led, rfl⟩)

end Rounds

theorem mem_openings {n m : Nonterminal} :
    m.index ∈ n.openings ↔ Relation.ReflTransGen (fun a b => b ∈ fronts a) n m := by
  rw [openings_eq]
  exact mem_reach

theorem mem_closings {n m : Nonterminal} :
    m.index ∈ n.closings ↔ Relation.ReflTransGen (fun a b => b ∈ backs a) n m := by
  rw [closings_eq]
  exact mem_reach

theorem mem_fronts {n m : Nonterminal} :
    m ∈ n.fronts ↔ ∃ xs, Symbol.phrase m :: xs ∈ n.bodies := by
  simp only [fronts, List.mem_filterMap]
  constructor
  · rintro ⟨body, hb, h⟩
    cases body with
    | nil => simp at h
    | cons x xs =>
        cases x with
        | terminal t => simp at h
        | phrase p =>
            obtain rfl : p = m := by simpa using h
            exact ⟨xs, hb⟩
  · rintro ⟨xs, hb⟩
    exact ⟨_, hb, rfl⟩

theorem mem_backs {n m : Nonterminal} :
    m ∈ n.backs ↔ ∃ body ∈ n.bodies, body.getLast? = some (Symbol.phrase m) := by
  simp only [backs, List.mem_filterMap]
  constructor
  · rintro ⟨body, hb, h⟩
    refine ⟨body, hb, ?_⟩
    cases last : body.getLast? with
    | none => simp [last] at h
    | some x =>
        cases x with
        | terminal t => simp [last] at h
        | phrase p => simpa [last] using h
  · rintro ⟨body, hb, h⟩
    exact ⟨body, hb, by rw [h]⟩

/-! ## The start phrase stands in no body -/

theorem start_not_mem {n : Nonterminal} {body : List Symbol} (h : body ∈ n.bodies) :
    Symbol.phrase .start ∉ body := by
  revert body
  cases n <;> decide

theorem start_not_mem_backs {n : Nonterminal} : .start ∉ n.backs := by
  intro h
  obtain ⟨body, hb, last⟩ := mem_backs.mp h
  exact start_not_mem hb (List.mem_of_getLast? last)

theorem start_mem_closings {n : Nonterminal} : start.index ∈ n.closings ↔ n = start := by
  rw [mem_closings]
  constructor
  · intro h
    cases h with
    | refl => rfl
    | tail _ led => exact absurd led start_not_mem_backs
  · rintro rfl
    exact .refl

end Nonterminal

/-! ## First tokens -/

namespace Nonterminal

theorem mem_first {n : Nonterminal} {k : Nat} :
    k ∈ n.first ↔ ∃ m : Nonterminal, m.index ∈ n.openings ∧
      ∃ t ∈ m.frontTerminals, t.index = k := by
  simp [first_eq, firstSet, BitSet.mem_ofList, mem_all]

/-- The first symbol of a body brings its first terminals along. -/
theorem mem_first_of_front {n : Nonterminal} {x : Symbol} {xs : List Symbol}
    (h : x :: xs ∈ n.bodies) {k : Nat} (hk : k ∈ x.first) : k ∈ n.first := by
  cases x with
  | terminal t =>
      obtain rfl : k = t.index := BitSet.mem_singleton.mp hk
      refine mem_first.mpr ⟨n, mem_openings.mpr .refl, t, ?_, rfl⟩
      exact List.mem_filterMap.mpr ⟨_, h, rfl⟩
  | phrase m =>
      obtain ⟨p, hp, front⟩ := mem_first.mp hk
      refine mem_first.mpr ⟨p, mem_openings.mpr ?_, front⟩
      exact .head (mem_fronts.mpr ⟨xs, h⟩) (mem_openings.mp hp)

end Nonterminal

mutual

/-- The first token of what a symbol derives is among its first terminals. -/
theorem Derives.first_mem {x : Symbol} {w : List Token} {parts : List ParseTree} :
    Derives x w parts → ∀ t ∈ w.head?, t.terminal.index ∈ x.first
  | .token t, u, h => by
      obtain rfl : t = u := by simpa using h
      exact BitSet.mem_singleton.mpr rfl
  | @Derives.phrase n body _ _ hb all, u, h => by
      have front := all.first_mem
      cases body with
      | nil => exact absurd rfl (Nonterminal.bodies_ne_nil hb)
      | cons y ys => exact n.mem_first_of_front hb (front y rfl u h)

theorem DerivesAll.first_mem {xs : List Symbol} {w : List Token} {parts : List ParseTree} :
    DerivesAll xs w parts → ∀ y ∈ xs.head?, ∀ t ∈ w.head?, t.terminal.index ∈ y.first
  | .nil, _, hy, _, _ => by simp at hy
  | .cons one _, y, hy, u, h => by
      obtain rfl := Option.some.inj hy
      rw [List.head?_append_of_ne_nil _ one.ne_nil] at h
      exact one.first_mem u h

end

/-! ## What comes after a phrase -/

namespace Nonterminal

theorem mem_allNeighbours {m : Nonterminal} {y : Symbol} :
    (m, y) ∈ Rule.allNeighbours ↔
      ∃ r ∈ Rule.all, (Symbol.phrase m, y) ∈ r.body.zip r.body.tail := by
  simp only [Rule.allNeighbours, Rule.neighbours, List.mem_flatMap, List.mem_filterMap,
    Prod.exists]
  constructor
  · rintro ⟨r, hr, x, z, hz, h⟩
    cases x with
    | terminal t => simp at h
    | phrase p =>
        obtain ⟨rfl, rfl⟩ : p = m ∧ z = y := by simpa using h
        exact ⟨r, hr, hz⟩
  · rintro ⟨r, hr, hz⟩
    exact ⟨r, hr, _, _, hz, rfl⟩

theorem mem_follow {n : Nonterminal} {k : Nat} :
    k ∈ n.follow ↔
      (n.index ∈ start.closings ∧ k = Lookahead.endOfText.index) ∨
        ∃ m y, (m, y) ∈ Rule.allNeighbours ∧ n.index ∈ m.closings ∧ k ∈ y.first := by
  rw [follow_eq]
  by_cases h : n.index ∈ start.closings
  · simp [followSet, BitSet.mem_unionAll, h, and_assoc]
  · simp [followSet, BitSet.mem_unionAll, h, and_assoc]

/-- What a symbol begins with can follow the phrase before it. -/
theorem mem_follow_of_neighbour {n m : Nonterminal} {before after : List Symbol} {y : Symbol}
    (h : before ++ .phrase m :: y :: after ∈ n.bodies) {k : Nat} (hk : k ∈ y.first) :
    k ∈ m.follow := by
  refine mem_follow.mpr (Or.inr ⟨m, y, ?_, mem_closings.mpr .refl, hk⟩)
  refine mem_allNeighbours.mpr ⟨⟨n, _⟩, Rule.mem_all_iff.mpr h, ?_⟩
  refine List.mem_iff_getElem?.mpr ⟨before.length, ?_⟩
  simp

/-- What follows a phrase can follow the phrase that it ends with. -/
theorem mem_follow_of_last {n m : Nonterminal} {body : List Symbol} (h : body ∈ n.bodies)
    (last : body.getLast? = some (.phrase m)) {k : Nat} (hk : k ∈ n.follow) : k ∈ m.follow := by
  have led : m ∈ n.backs := mem_backs.mpr ⟨body, h, last⟩
  rcases mem_follow.mp hk with ⟨hn, rfl⟩ | ⟨p, y, near, hn, hy⟩
  · exact mem_follow.mpr (Or.inl ⟨mem_closings.mpr ((mem_closings.mp hn).tail led), rfl⟩)
  · exact mem_follow.mpr
      (Or.inr ⟨p, y, near, mem_closings.mpr ((mem_closings.mp hn).tail led), hy⟩)

theorem end_mem_follow : Lookahead.endOfText.index ∈ start.follow :=
  mem_follow.mpr (Or.inl ⟨mem_closings.mpr .refl, rfl⟩)

/-- No token comes after a whole text. -/
theorem terminal_not_mem_follow_start (t : Terminal) : t.index ∉ start.follow := by
  intro h
  rcases mem_follow.mp h with ⟨_, he⟩ | ⟨m, y, near, hm, _⟩
  · exact absurd he (Nat.ne_of_lt t.index_lt_count)
  · obtain rfl := start_mem_closings.mp hm
    obtain ⟨r, hr, hz⟩ := mem_allNeighbours.mp near
    exact start_not_mem (Rule.mem_all_iff.mp hr) (List.of_mem_zip hz).1

end Nonterminal

end PvsIndex
