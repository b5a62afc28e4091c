import PvsIndex.Proofs.Parse.Feed

/-!
# Every state offers one move at most

Whether a text can be parsed from left to right by looking one token ahead is a
question about the states that linked stacks can reach.  There are finitely
many, and here they are all visited: `visit` follows the moves from the initial
state, checks each state it meets once, and answers `true` only if it has run
out of states.  `Linked.passes` turns that answer into a statement about all
linked stacks, whatever is checked.

The check of interest is `State.isDecided`: beside a rule read to its end there
is no second such rule, and no item waits for a terminal that may follow its
phrase.  `Linked.decided` is the result, and `State.Decided.move?_eq` its use.

The visit is evaluated by the kernel.  This is why the sets of items that it
needs are read off one long row of bits (`Item.waits`) and lined up in lists
that are walked through; `State.goto_mem_next` says that no state of the parser
is missed all the same.
-/

namespace PvsIndex

/-- Have two sets no member in common? -/
def BitSet.misses (s t : BitSet) : Bool :=
  Nat.beq (Nat.land s.bits t.bits) 0

theorem BitSet.misses_eq (s t : BitSet) : s.misses t = (s.inter t).isEmpty := by
  rw [Bool.eq_iff_iff, misses, isEmpty, inter, beq_iff_eq, Nat.beq_eq]
  rfl

theorem BitSet.misses_eq_false_iff {s t : BitSet} : s.misses t = false ↔ ∃ n ∈ s, n ∈ t := by
  rw [misses_eq, isEmpty_eq_false_iff]
  simp only [mem_inter]

theorem BitSet.not_mem_of_misses {s t : BitSet} (h : s.misses t = true) {n : Nat} (hs : n ∈ s) :
    n ∉ t := by
  intro ht
  rw [misses_eq_false_iff.mpr ⟨n, hs, ht⟩] at h
  cases h

theorem Symbol.index_inj {x y : Symbol} (h : x.index = y.index) : x = y := by
  have found := x.all_index
  rw [h, y.all_index] at found
  exact (Option.some.inj found).symm

theorem Symbol.mem_all (x : Symbol) : x ∈ all :=
  List.mem_of_getElem? x.all_index

/-! ## Who waits for what -/

namespace Item

/-- Room for all items. -/
def span : Nat := 1600

theorem code_lt_span {number dot : Nat} {r : Rule} (hr : Rule.all[number]? = some r)
    (hd : dot ≤ r.body.length) : code number dot < span := by
  have count : Rule.all.length = 150 := by decide +kernel
  have hn := (List.getElem?_eq_some_iff.mp hr).1
  have hd' := Nat.lt_of_le_of_lt hd (length_lt hr)
  unfold code stride span at *
  omega

/-- Which item waits for which symbol, as one set. -/
def waits : BitSet :=
  .ofList <| Rule.all.zipIdx.flatMap fun (r, number) =>
    r.body.zipIdx.map fun (x, dot) => x.index * span + code number dot

/-- The items that wait for a symbol, cut out of that set. -/
def waitingFor (x : Symbol) : BitSet :=
  ⟨(waits.bits >>> (x.index * span)) % (1 <<< span)⟩

theorem mem_waits {x : Symbol} {k : Nat} (hk : k < span) :
    x.index * span + k ∈ waits ↔ k ∈ before x := by
  simp only [waits, BitSet.mem_ofList, List.mem_flatMap, List.mem_map, Prod.exists,
    List.mem_zipIdx_iff_getElem?, mem_before]
  constructor
  · rintro ⟨r, number, hr, y, dot, hy, same⟩
    have fits := code_lt_span hr (Nat.le_of_lt (List.getElem?_eq_some_iff.mp hy).1)
    have index_eq : y.index = x.index := by
      unfold span at *
      omega
    obtain rfl := Symbol.index_inj index_eq
    exact ⟨number, dot, r, hr, hy, by omega⟩
  · rintro ⟨number, dot, r, hr, hx, rfl⟩
    exact ⟨r, number, hr, x, dot, hx, rfl⟩

theorem waitingFor_eq (x : Symbol) : waitingFor x = before x := by
  refine BitSet.ext fun k => ?_
  rw [BitSet.mem_def, waitingFor, Nat.one_shiftLeft, Nat.testBit_mod_two_pow,
    Nat.testBit_shiftRight]
  by_cases hk : k < span
  · rw [← mem_waits hk, BitSet.mem_def]
    simp [hk]
  · have unknown : k ∉ before x := by
      intro h
      obtain ⟨number, dot, r, hr, hx, rfl⟩ := mem_before.mp h
      exact hk (code_lt_span hr (Nat.le_of_lt (List.getElem?_eq_some_iff.mp hx).1))
    simp [hk, unknown]

end Item

/-! ## Moves -/

namespace State

/-- For each phrase, the items that wait for it and the items they open. -/
def openings : List (BitSet × BitSet) :=
  Nonterminal.all.map fun n => (Item.waitingFor (.phrase n), Item.openItems n)

/-- Add to `s` what the items of `kernel` open. -/
def addOpened (kernel : BitSet) : List (BitSet × BitSet) → State → State
  | [], s => s
  | (waiting, opened) :: rest, s =>
    bif kernel.misses waiting then addOpened kernel rest s
    else addOpened kernel rest (s.union opened)

/-- The state with this kernel. -/
def ofKernel (kernel : BitSet) : State :=
  addOpened kernel openings kernel

/-- The items that wait for each symbol. -/
def waitings : List BitSet :=
  Symbol.all.map Item.waitingFor

/-- The states after each symbol that is awaited. -/
def nextOver (s : State) : List BitSet → List State
  | [] => []
  | waiting :: rest =>
    bif s.misses waiting then s.nextOver rest
    else ofKernel (s.inter waiting).succ :: s.nextOver rest

/-- The states that can come next. -/
def next (s : State) : List State :=
  s.nextOver waitings

theorem mem_addOpened {kernel : BitSet} {k : Nat} : ∀ {rows : List (BitSet × BitSet)} {s : State},
    k ∈ addOpened kernel rows s ↔
      k ∈ s ∨ ∃ row ∈ rows, (∃ i ∈ kernel, i ∈ row.1) ∧ k ∈ row.2
  | [], s => by simp [addOpened]
  | (waiting, opened) :: rest, s => by
      unfold addOpened
      cases miss : kernel.misses waiting with
      | true =>
          have missed : ¬ ∃ i ∈ kernel, i ∈ waiting := by
            rintro ⟨i, hi, hw⟩
            exact BitSet.not_mem_of_misses miss hi hw
          simp [mem_addOpened, missed]
      | false =>
          have met := BitSet.misses_eq_false_iff.mp miss
          simp [mem_addOpened, met, or_assoc]

theorem ofKernel_eq (kernel : BitSet) : ofKernel kernel = close kernel := by
  refine BitSet.ext fun k => ?_
  rw [ofKernel, mem_addOpened, mem_close]
  simp only [openings, List.mem_map, Nonterminal.mem_all, true_and, exists_exists_eq_and,
    Item.waitingFor_eq]

theorem mem_nextOver {s : State} {x : Symbol} {xs : List Symbol} (hx : x ∈ xs) {i : Nat}
    (hi : i ∈ s) (hw : i ∈ Item.before x) : s.goto x ∈ s.nextOver (xs.map Item.waitingFor) := by
  induction xs with
  | nil => cases hx
  | cons y ys ih =>
      simp only [List.map_cons, nextOver]
      rcases List.mem_cons.mp hx with rfl | hy
      · have hit : BitSet.misses s (Item.waitingFor x) = false :=
          BitSet.misses_eq_false_iff.mpr ⟨i, hi, Item.waitingFor_eq x ▸ hw⟩
        rw [hit, cond_false, ofKernel_eq, Item.waitingFor_eq]
        exact List.mem_cons_self
      · cases BitSet.misses s (Item.waitingFor y) with
        | true => exact ih hy
        | false => exact List.mem_cons_of_mem _ (ih hy)

theorem goto_mem_next {s : State} {x : Symbol} (h : (s.goto x).isEmpty = false) :
    s.goto x ∈ s.next := by
  obtain ⟨k, hk⟩ := BitSet.isEmpty_eq_false_iff.mp h
  rcases mem_goto.mp hk with ⟨i, hi, hx, _⟩ | ⟨_, ⟨i, hi, hx, _⟩, _⟩
  · exact mem_nextOver x.mem_all hi hx
  · exact mem_nextOver x.mem_all hi hx

end State

/-! ## Visiting the states -/

/-- The states visited so far, sorted by their bits. -/
inductive Visited where
  | none
  | fork (less : Visited) (bits : Nat) (more : Visited)

namespace Visited

def insert (bits : Nat) : Visited → Visited
  | none => fork none bits none
  | fork less here more =>
    bif Nat.ble here bits then fork less here (more.insert bits)
    else fork (less.insert bits) here more

def contains (bits : Nat) : Visited → Bool
  | none => false
  | fork less here more =>
    bif Nat.beq here bits then true
    else bif Nat.ble here bits then more.contains bits else less.contains bits

/-- Is a state among those visited, wherever it is filed? -/
def Holds (bits : Nat) : Visited → Prop
  | none => False
  | fork less here more => bits = here ∨ less.Holds bits ∨ more.Holds bits

theorem holds_insert {bits new : Nat} : ∀ {v : Visited},
    (v.insert new).Holds bits ↔ bits = new ∨ v.Holds bits
  | none => by simp [insert, Holds]
  | fork less here more => by
      unfold insert
      cases Nat.ble here new
      · simp only [cond_false, Holds, holds_insert]
        grind
      · simp only [cond_true, Holds, holds_insert]
        grind

theorem holds_of_contains {bits : Nat} : ∀ {v : Visited}, v.contains bits = true → v.Holds bits
  | none, h => by cases h
  | fork less here more, h => by
      unfold contains at h
      cases same : Nat.beq here bits with
      | true => exact Or.inl (Nat.eq_of_beq_eq_true same).symm
      | false =>
          rw [same, cond_false] at h
          cases le : Nat.ble here bits with
          | true =>
              rw [le, cond_true] at h
              exact Or.inr (Or.inr (holds_of_contains h))
          | false =>
              rw [le, cond_false] at h
              exact Or.inr (Or.inl (holds_of_contains h))

end Visited

/-- Check the pending states and all that follow them, except those visited.
The answer is `true` if every check succeeds and no state is left after so many
steps. -/
def visit (check : State → Bool) : Nat → List State → Visited → Bool
  | _, [], _ => true
  | 0, _ :: _, _ => false
  | steps + 1, s :: pending, visited =>
    bif visited.contains s.bits then visit check steps pending visited
    else check s && visit check steps (s.next ++ pending) (visited.insert s.bits)

/-- A successful visit leaves a set of states that is closed under moves and
passes the check. -/
theorem visit_sound {check : State → Bool} : ∀ {steps : Nat} {pending : List State}
    {visited : Visited}, visit check steps pending visited = true →
      ∃ V : State → Prop, (∀ s ∈ pending, V s) ∧ (∀ s : State, visited.Holds s.bits → V s) ∧
        ∀ s, V s → visited.Holds s.bits ∨ (check s = true ∧ ∀ t ∈ s.next, V t)
  | _, [], visited, _ => by
      refine ⟨fun s => visited.Holds s.bits, ?_, fun _ hs => hs, fun _ hs => Or.inl hs⟩
      exact fun _ hs => absurd hs List.not_mem_nil
  | 0, _ :: _, _, h => by cases h
  | steps + 1, s :: pending, visited, h => by
      unfold visit at h
      cases old : visited.contains s.bits with
      | true =>
          rw [old, cond_true] at h
          obtain ⟨V, pend, seen, closed⟩ := visit_sound h
          refine ⟨V, fun t ht => ?_, seen, closed⟩
          rcases List.mem_cons.mp ht with rfl | ht
          · exact seen _ (Visited.holds_of_contains old)
          · exact pend t ht
      | false =>
          rw [old, cond_false, Bool.and_eq_true] at h
          obtain ⟨V, pend, seen, closed⟩ := visit_sound h.2
          refine ⟨V, fun t ht => ?_, fun t ht => ?_, fun t ht => ?_⟩
          · rcases List.mem_cons.mp ht with rfl | ht
            · exact seen _ (Visited.holds_insert.mpr (Or.inl rfl))
            · exact pend t (List.mem_append_right _ ht)
          · exact seen t (Visited.holds_insert.mpr (Or.inr ht))
          · rcases closed t ht with held | passed
            · rcases Visited.holds_insert.mp held with same | held
              · obtain rfl : t = s := by
                  cases t; cases s
                  exact congrArg BitSet.mk same
                exact Or.inr ⟨h.1, fun u hu => pend u (List.mem_append_left _ hu)⟩
              · exact Or.inl held
            · exact Or.inr passed

/-- Steps enough for all moves between states. -/
def visitSteps : Nat := 2500

/-- Whatever a visit from the initial state checks holds of all linked stacks. -/
theorem Stack.Linked.passes {check : State → Bool}
    (h : visit check visitSteps [.initial] .none = true) {s : Stack} (hs : s.Linked) :
    check s.state = true := by
  obtain ⟨V, pend, _, closed⟩ := visit_sound h
  have inside : ∀ t, V t → check t = true ∧ ∀ u ∈ t.next, V u := by
    intro t ht
    rcases closed t ht with held | passed
    · exact held.elim
    · exact passed
  suffices V s.state from (inside _ this).1
  induction s with
  | nil => exact pend _ List.mem_cons_self
  | cons f s ih =>
      obtain ⟨hf, full, hs⟩ := hs
      have follows : State.goto (Stack.state s) f.symbol ∈ (Stack.state s).next :=
        State.goto_mem_next (hf ▸ full)
      have state_eq : Stack.state (f :: s) = State.goto (Stack.state s) f.symbol := hf
      rw [state_eq]
      exact (inside _ (ih hs)).2 _ follows

/-! ## One move at most -/

namespace State

/-- Beside a rule read to its end, no other is, and nothing that may follow its
phrase is awaited. -/
structure Decided (s : State) : Prop where
  one_end : ∀ {number number' : Nat} {r r' : Rule}, Rule.all[number]? = some r →
    Rule.all[number']? = some r' → Item.code number r.body.length ∈ s →
      Item.code number' r'.body.length ∈ s → r = r'
  no_clash : ∀ {number i : Nat} {r : Rule} {t : Terminal}, Rule.all[number]? = some r →
    Item.code number r.body.length ∈ s → i ∈ s → i ∈ Item.before (.terminal t) →
      t.index ∉ r.head.follow

/-- The items read to their end. -/
def ends : BitSet :=
  .ofList <| Rule.all.zipIdx.map fun (r, number) => Item.code number r.body.length

/-- The items that wait for a terminal which may follow `n`. -/
def rivals (n : Nonterminal) : BitSet :=
  .unionAll <| (Terminal.all.filter fun t => n.follow.contains t.index).map fun t =>
    Item.waitingFor (.terminal t)

/-- For each rule, its item read to the end and the rivals of its phrase. -/
def endings : List (BitSet × BitSet) :=
  Rule.all.zipIdx.map fun (r, number) =>
    (.singleton (Item.code number r.body.length), rivals r.head)

/-- Is the first ending that the state has the only one, and without rivals? -/
def standsAlone (s : State) : List (BitSet × BitSet) → Bool
  | [] => true
  | (ending, rivals) :: rest =>
    bif s.misses ending then s.standsAlone rest
    else s.misses rivals && Nat.beq (s.inter ends).bits ending.bits

/-- Decide `Decided`. -/
def isDecided (s : State) : Bool :=
  bif s.misses ends then true else s.standsAlone endings

theorem mem_ends {k : Nat} :
    k ∈ ends ↔ ∃ number r, Rule.all[number]? = some r ∧ Item.code number r.body.length = k := by
  simp only [ends, BitSet.mem_ofList, List.mem_map, Prod.exists, List.mem_zipIdx_iff_getElem?]
  exact exists_comm

theorem mem_rivals {n : Nonterminal} {k : Nat} :
    k ∈ rivals n ↔ ∃ t : Terminal, t.index ∈ n.follow ∧ k ∈ Item.before (.terminal t) := by
  simp only [rivals, BitSet.mem_unionAll, List.mem_map, List.mem_filter, Terminal.mem_all,
    BitSet.contains_eq_true_iff, true_and, exists_exists_and_eq_and, Item.waitingFor_eq]

/-- What `standsAlone` finds, it finds of an ending of the state. -/
theorem standsAlone_spec {s : State} {rows : List (BitSet × BitSet)}
    (h : s.standsAlone rows = true) (hits : ∃ row ∈ rows, s.misses row.1 = false) :
    ∃ row ∈ rows, s.misses row.1 = false ∧ s.misses row.2 = true ∧
      (s.inter ends).bits = row.1.bits := by
  induction rows with
  | nil => simp at hits
  | cons row rest ih =>
      unfold standsAlone at h
      cases miss : BitSet.misses s row.1 with
      | true =>
          rw [miss, cond_true] at h
          obtain ⟨row', hr, hit⟩ := hits
          rcases List.mem_cons.mp hr with rfl | hr
          · rw [miss] at hit
            cases hit
          · obtain ⟨row'', hr'', found⟩ := ih h ⟨row', hr, hit⟩
            exact ⟨row'', List.mem_cons_of_mem _ hr'', found⟩
      | false =>
          rw [miss, cond_false, Bool.and_eq_true] at h
          exact ⟨row, List.mem_cons_self, miss, h.1, Nat.eq_of_beq_eq_true h.2⟩

theorem decided_of_isDecided {s : State} (h : s.isDecided = true) : s.Decided := by
  -- with one rule at its end, there is a row whose ending is the only one
  have alone : ∀ {number : Nat} {r : Rule}, Rule.all[number]? = some r →
      Item.code number r.body.length ∈ s →
        (∀ k ∈ s, k ∈ ends → k = Item.code number r.body.length) ∧
          ∀ k ∈ s, k ∉ rivals r.head := by
    intro number r hr final
    have ended : Item.code number r.body.length ∈ ends := mem_ends.mpr ⟨number, r, hr, rfl⟩
    have hit : BitSet.misses s ends = false := BitSet.misses_eq_false_iff.mpr ⟨_, final, ended⟩
    rw [isDecided, hit, cond_false] at h
    have row_mem : (BitSet.singleton (Item.code number r.body.length), rivals r.head) ∈ endings :=
      List.mem_map.mpr ⟨(r, number), List.mem_zipIdx_iff_getElem?.mpr hr, rfl⟩
    obtain ⟨row, hrow, _, free, only⟩ := standsAlone_spec h
      ⟨_, row_mem, BitSet.misses_eq_false_iff.mpr ⟨_, final, BitSet.mem_singleton.mpr rfl⟩⟩
    obtain ⟨⟨r', number'⟩, hr', rfl⟩ := List.mem_map.mp hrow
    have here : ∀ k, k ∈ s → k ∈ ends → k = Item.code number' r'.body.length := by
      intro k hk he
      have both : k ∈ s.inter ends := BitSet.mem_inter.mpr ⟨hk, he⟩
      rw [BitSet.mem_def, only] at both
      exact BitSet.mem_singleton.mp both
    have same := here _ final ended
    obtain ⟨rfl, -⟩ := Item.code_inj (Item.length_lt hr)
      (Item.length_lt (List.mem_zipIdx_iff_getElem?.mp hr')) same
    obtain rfl : r = r' := Option.some.inj (hr.symm.trans (List.mem_zipIdx_iff_getElem?.mp hr'))
    exact ⟨here, fun k hk => BitSet.not_mem_of_misses free hk⟩
  constructor
  · intro number number' r r' hr hr' final final'
    have same := (alone hr final).1 _ final' (mem_ends.mpr ⟨number', r', hr', rfl⟩)
    obtain ⟨rfl, -⟩ := Item.code_inj (Item.length_lt hr') (Item.length_lt hr) same
    exact Option.some.inj (hr.symm.trans hr')
  · intro number i r t hr final hi ht follows
    exact (alone hr final).2 i hi (mem_rivals.mpr ⟨t, follows, ht⟩)

/-- A rule read to its end is recognised on every lookahead that may follow its
phrase. -/
theorem Decided.move?_eq {s : State} (hs : s.Decided) {number : Nat} {r : Rule} {a : Lookahead}
    (hr : Rule.all[number]? = some r) (final : Item.code number r.body.length ∈ s)
    (follows : a.index ∈ r.head.follow) : s.move? a = some (.reduce r) := by
  have no_shift : s.awaited? a = none := by
    cases awaited : s.awaited? a with
    | none => rfl
    | some t =>
        obtain ⟨rfl, i, hi, ht⟩ := awaited?_eq_some.mp awaited
        exact absurd follows (hs.no_clash hr final hi ht)
  have closed : Item.code number r.body.length ∈ s.inter (Item.closedAt a) :=
    BitSet.mem_inter.mpr ⟨final, Item.mem_closedAt.mpr ⟨number, r, hr, follows, rfl⟩⟩
  have finished : s.finished? a = some r := by
    cases greatest : (s.inter (Item.closedAt a)).max? with
    | none =>
        have full := BitSet.isEmpty_eq_false_iff.mpr ⟨_, closed⟩
        simp [BitSet.max?, full] at greatest
    | some k =>
        obtain ⟨hk, hc⟩ := BitSet.mem_inter.mp (BitSet.mem_of_max? greatest)
        obtain ⟨number', r', hr', _, rfl⟩ := Item.mem_closedAt.mp hc
        obtain rfl := hs.one_end hr hr' final hk
        rw [finished?, greatest, Option.bind_some, Item.ruleOf?_code (Item.length_lt hr'), hr']
  simp only [move?, no_shift, finished, Option.map_some]

end State

theorem visit_isDecided : visit State.isDecided visitSteps [.initial] .none = true := by
  decide +kernel

/-- On a linked stack there is one move at most. -/
theorem Stack.Linked.decided {s : Stack} (hs : s.Linked) : s.state.Decided :=
  State.decided_of_isDecided (hs.passes visit_isDecided)

end PvsIndex
