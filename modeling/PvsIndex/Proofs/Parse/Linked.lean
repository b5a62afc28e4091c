import PvsIndex.Parse.Stack
import PvsIndex.Proofs.Grammar.Lookahead

/-!
# Linked stacks

A stack is *linked* when the state in each frame is the one reached from the
frame below by the frame's symbol, and is not empty.  The parser builds no
other stacks, and everything that can be said of them follows from how states
are computed; no table of states is consulted.

  * `Linked.underWay`: an item in the current state has its symbols before the
    dot on top of the stack, and its rule was opened right below them;
  * `Linked.awaited`: below an opened rule some item waits for its phrase,
    unless the rule is the start rule and there is nothing below;
  * `Linked.opened`: with an item that waits for a phrase, every rule of that
    phrase is opened.

The first two say that a recognised rule can always be taken off the stack and
its phrase read in its place.  The third is what a derivation needs to drive
the parser.
-/

namespace PvsIndex

/-! ## Items and their codes -/

namespace Rule

theorem exists_number {n : Nonterminal} {body : List Symbol} (h : body ∈ n.bodies) :
    ∃ number : Nat, all[number]? = some ⟨n, body⟩ :=
  List.getElem?_of_mem (mem_all_iff.mpr h)

theorem mem_bodies {number : Nat} {r : Rule} (h : all[number]? = some r) :
    r.body ∈ r.head.bodies :=
  mem_all_iff.mp (List.mem_of_getElem? h)

end Rule

namespace Item

theorem length_lt {number : Nat} {r : Rule} (h : Rule.all[number]? = some r) :
    r.body.length < stride :=
  length_body_lt (List.mem_of_getElem? h)

theorem code_inj {number number' dot dot' : Nat} (hd : dot < stride) (hd' : dot' < stride)
    (h : code number dot = code number' dot') : number = number' ∧ dot = dot' := by
  unfold code stride at *
  omega

theorem code_mem_before {number dot : Nat} {r : Rule} {x : Symbol}
    (hr : Rule.all[number]? = some r) (hd : dot ≤ r.body.length) :
    code number dot ∈ before x ↔ r.body[dot]? = some x := by
  rw [mem_before]
  constructor
  · rintro ⟨number', dot', r', hr', hx, same⟩
    have hd' : dot' < r'.body.length := (List.getElem?_eq_some_iff.mp hx).1
    obtain ⟨rfl, rfl⟩ := code_inj (Nat.lt_trans hd' (length_lt hr'))
      (Nat.lt_of_le_of_lt hd (length_lt hr)) same
    obtain rfl : r = r' := Option.some.inj (hr.symm.trans hr')
    exact hx
  · intro hx
    exact ⟨number, dot, r, hr, hx, rfl⟩

/-- Opening a phrase opens what it can begin with. -/
theorem openItems_trans {m n : Nonterminal} {i k : Nat} (hi : i ∈ openItems m)
    (hn : i ∈ before (.phrase n)) (hk : k ∈ openItems n) : k ∈ openItems m := by
  obtain ⟨number, r, hr, reached, rfl⟩ := mem_openItems.mp hi
  obtain ⟨number', r', hr', reached', rfl⟩ := mem_openItems.mp hk
  refine mem_openItems.mpr ⟨number', r', hr', ?_, rfl⟩
  have first := (code_mem_before hr (Nat.zero_le _)).mp hn
  have front : n ∈ r.head.fronts := by
    refine Nonterminal.mem_fronts.mpr ⟨r.body.tail, ?_⟩
    have split : r.body = .phrase n :: r.body.tail := by
      cases h : r.body with
      | nil => simp [h] at first
      | cons x xs => simpa [h] using first
    rw [← split]
    exact Rule.mem_bodies hr
  rw [Nonterminal.mem_openings] at reached reached' ⊢
  exact (reached.tail front).trans reached'

/-- An opened rule that is not of the phrase itself stands at the front of
another one. -/
theorem openItems_front {m : Nonterminal} {number : Nat} {r : Rule}
    (hr : Rule.all[number]? = some r) (h : code number 0 ∈ openItems m) :
    r.head = m ∨ ∃ i ∈ openItems m, i ∈ before (.phrase r.head) := by
  obtain ⟨number', r', hr', reached, same⟩ := mem_openItems.mp h
  obtain ⟨rfl, -⟩ := code_inj (Nat.zero_lt_succ _) (Nat.zero_lt_succ _) same
  obtain rfl : r = r' := Option.some.inj (hr.symm.trans hr')
  rw [Nonterminal.mem_openings] at reached
  cases reached with
  | refl => exact Or.inl rfl
  | tail reached front =>
      obtain ⟨xs, hb⟩ := Nonterminal.mem_fronts.mp front
      obtain ⟨outer, ho⟩ := Rule.exists_number hb
      refine Or.inr ⟨code outer 0, ?_, (code_mem_before ho (Nat.zero_le _)).mpr rfl⟩
      exact mem_openItems.mpr ⟨outer, _, ho, Nonterminal.mem_openings.mpr reached, rfl⟩

theorem not_mem_before_start {i : Nat} : i ∉ before (.phrase .start) := by
  intro h
  obtain ⟨number, dot, r, hr, hx, _⟩ := mem_before.mp h
  exact Nonterminal.start_not_mem (Rule.mem_bodies hr) (List.mem_of_getElem? hx)

end Item

namespace State

theorem succ_mem_goto {s : State} {x : Symbol} {i : Nat} (hi : i ∈ s) (hx : i ∈ Item.before x) :
    i + 1 ∈ s.goto x :=
  mem_goto.mpr (Or.inl ⟨i, hi, hx, rfl⟩)

theorem goto_not_empty {s : State} {x : Symbol} {i : Nat} (hi : i ∈ s)
    (hx : i ∈ Item.before x) : (s.goto x).isEmpty = false :=
  BitSet.isEmpty_eq_false_iff.mpr ⟨i + 1, succ_mem_goto hi hx⟩

end State

/-! ## Linked stacks -/

namespace Stack

/-- Each state is reached from the one below by the symbol between them. -/
def Linked : Stack → Prop
  | [] => True
  | f :: s => f.state = State.goto (state s) f.symbol ∧ f.state.isEmpty = false ∧ Linked s

theorem Linked.drop : ∀ {s : Stack} (k : Nat), Linked s → Linked (s.drop k)
  | _, 0, h => h
  | [], _ + 1, h => h
  | _ :: _, k + 1, ⟨_, _, h⟩ => Linked.drop k h

theorem Linked.push {s : Stack} (hs : Linked s) {x : Symbol} (parts : List ParseTree) {i : Nat}
    (hi : i ∈ s.state) (hx : i ∈ Item.before x) : Linked (s.push x parts) :=
  ⟨rfl, State.goto_not_empty hi hx, hs⟩

theorem state_nil : Stack.state [] = Item.openItems .start := rfl

/-- An item as it stands on a stack: what is before its dot has been read, and
its rule was opened below that. -/
structure UnderWay (s : Stack) (number dot : Nat) (r : Rule) : Prop where
  rule : Rule.all[number]? = some r
  dot_le : dot ≤ r.body.length
  read : (s.take dot).reverse.map Frame.symbol = r.body.take dot
  opened : Item.code number 0 ∈ Stack.state (s.drop dot)

theorem UnderWay.of_opened {s : Stack} {n : Nonterminal} {k : Nat} (h : k ∈ Item.openItems n)
    (hs : k ∈ s.state) : ∃ number dot r, Item.code number dot = k ∧ s.UnderWay number dot r := by
  obtain ⟨number, r, hr, _, rfl⟩ := Item.mem_openItems.mp h
  exact ⟨number, 0, r, rfl, hr, Nat.zero_le _, rfl, hs⟩

theorem UnderWay.push {s : Stack} {f : Frame} {number dot : Nat} {r : Rule}
    (h : s.UnderWay number dot r) (hf : r.body[dot]? = some f.symbol) :
    UnderWay (f :: s) number (dot + 1) r where
  rule := h.rule
  dot_le := (List.getElem?_eq_some_iff.mp hf).1
  read := by
    rw [List.take_succ_cons, List.reverse_cons, List.map_append, h.read, List.take_add_one, hf]
    rfl
  opened := h.opened

/-- Every item of the current state is under way. -/
theorem Linked.underWay : ∀ {s : Stack} {k : Nat}, Linked s → k ∈ s.state →
    ∃ number dot r, Item.code number dot = k ∧ s.UnderWay number dot r
  | [], _, _, hk => UnderWay.of_opened hk hk
  | f :: s, k, ⟨hf, _, hs⟩, hk => by
      have hk' : k ∈ f.state := hk
      rw [hf] at hk'
      rcases State.mem_goto.mp hk' with ⟨i, hi, hx, rfl⟩ | ⟨n, _, hn⟩
      · obtain ⟨number, dot, r, rfl, h⟩ := hs.underWay hi
        have hd := (Item.code_mem_before h.rule h.dot_le).mp hx
        exact ⟨number, dot + 1, r, rfl, h.push hd⟩
      · exact UnderWay.of_opened hn hk

/-- Some item waits for the phrase of an opened rule, unless it is the start
rule at the bottom. -/
theorem Linked.awaited : ∀ {s : Stack} {number : Nat} {r : Rule}, Linked s →
    Rule.all[number]? = some r → Item.code number 0 ∈ s.state →
      (r.head = .start ∧ s = []) ∨ ∃ i ∈ s.state, i ∈ Item.before (.phrase r.head)
  | [], _, _, _, hr, h => by
      rw [state_nil] at h ⊢
      rcases Item.openItems_front hr h with start | waits
      · exact Or.inl ⟨start, rfl⟩
      · exact Or.inr waits
  | f :: s, number, r, ⟨hf, _, hs⟩, hr, h => by
      have h' : Item.code number 0 ∈ f.state := h
      have state_eq : Stack.state (f :: s) = State.goto (Stack.state s) f.symbol := hf
      rw [hf] at h'
      rw [state_eq]
      rcases State.mem_goto.mp h' with ⟨i, hi, hx, same⟩ | ⟨n, ⟨i, hi, hx, hn⟩, opened⟩
      · -- a dot that has moved is not at the front
        obtain ⟨number', dot, r', rfl, under⟩ := hs.underWay hi
        have hd := (List.getElem?_eq_some_iff.mp
          ((Item.code_mem_before under.rule under.dot_le).mp hx)).1
        have bound := Item.length_lt under.rule
        obtain ⟨-, zero⟩ := Item.code_inj (Nat.zero_lt_succ _)
          (Nat.lt_of_le_of_lt hd bound) same
        cases zero
      · refine Or.inr ?_
        rcases Item.openItems_front hr opened with rfl | ⟨j, hj, hb⟩
        · exact ⟨i + 1, State.succ_mem_goto hi hx, hn⟩
        · exact ⟨j, State.mem_goto.mpr (Or.inr ⟨n, ⟨i, hi, hx, hn⟩, hj⟩), hb⟩

/-- With an item that waits for a phrase, the rules of the phrase are opened. -/
theorem Linked.opened {s : Stack} (hs : Linked s) {n : Nonterminal} {i k : Nat}
    (hi : i ∈ s.state) (hn : i ∈ Item.before (.phrase n)) (hk : k ∈ Item.openItems n) :
    k ∈ s.state := by
  cases s with
  | nil =>
      rw [state_nil] at hi ⊢
      exact Item.openItems_trans hi hn hk
  | cons f s =>
      have state_eq : Stack.state (f :: s) = State.goto (Stack.state s) f.symbol := hs.1
      rw [state_eq] at hi ⊢
      rcases State.mem_goto.mp hi with ⟨j, hj, hx, rfl⟩ | ⟨m, waits, hm⟩
      · exact State.mem_goto.mpr (Or.inr ⟨n, ⟨j, hj, hx, hn⟩, hk⟩)
      · exact State.mem_goto.mpr (Or.inr ⟨m, waits, Item.openItems_trans hm hn hk⟩)

theorem code_mem_openItems {n : Nonterminal} {number : Nat} {body : List Symbol}
    (h : Rule.all[number]? = some ⟨n, body⟩) : Item.code number 0 ∈ Item.openItems n :=
  Item.mem_openItems.mpr ⟨number, _, h, Nonterminal.mem_openings.mpr .refl, rfl⟩

end Stack

end PvsIndex
