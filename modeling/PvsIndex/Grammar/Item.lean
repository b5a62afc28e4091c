import PvsIndex.Grammar.Follow

/-!
# Items: rules that are partly read

An item is a rule with a dot in its body: what stands before the dot has been
read, what stands after it is still to come.  Items are numbered (`Item.code`)
so that moving the dot one symbol on is adding one, and a set of items is a bit
set.

Three sets carry the whole parser:

  * `before x`, the items whose dot stands right before the symbol `x`;
  * `openItems n`, the items at the front of every rule of a phrase that `n`
    opens with;
  * `closedAt a`, the items read to their end whose phrase may be followed by
    the lookahead `a`.

As with the sets of the grammar, each is given by its meaning and read from a
table; `mem_before`, `mem_openItems` and `mem_closedAt` say what is in them.
-/

namespace PvsIndex

namespace Item

/-- Room for the dots of one rule, whose body has eight symbols at most. -/
def stride : Nat := 9

/-- The number of the item of a rule, given by its position, with a dot. -/
def code (number dot : Nat) : Nat :=
  number * stride + dot

/-- The rules, by their position. -/
def ruleTable : Array Rule :=
  Rule.all.toArray

/-- The rule that an item belongs to. -/
def ruleOf? (k : Nat) : Option Rule :=
  ruleTable[k / stride]?

theorem length_body_lt {r : Rule} (h : r ∈ Rule.all) : r.body.length < stride := by
  have bounded : Rule.all.all (fun r => r.body.length < stride) = true := by decide +kernel
  simpa using List.all_eq_true.mp bounded r h

theorem ruleOf?_code {number dot : Nat} (h : dot < stride) :
    ruleOf? (code number dot) = Rule.all[number]? := by
  have quotient : code number dot / stride = number := by
    unfold code stride at *
    omega
  rw [ruleOf?, quotient, ruleTable, List.getElem?_toArray]

/-- The items whose dot stands right before `x`. -/
def beforeSet (x : Symbol) : BitSet :=
  .ofList <| Rule.all.zipIdx.flatMap fun (r, number) =>
    (r.body.zipIdx.filter fun (y, _) => y = x).map fun (_, dot) => code number dot

/-- The items at the front of the rules of every phrase that `n` opens with. -/
def openItemsSet (n : Nonterminal) : BitSet :=
  .ofList <| (Rule.all.zipIdx.filter fun (r, _) => n.openings.contains r.head.index).map
    fun (_, number) => code number 0

/-- The items read to their end whose phrase may be followed by `a`. -/
def closedAtSet (a : Lookahead) : BitSet :=
  .ofList <| (Rule.all.zipIdx.filter fun (r, _) => r.head.follow.contains a.index).map
    fun (r, number) => code number r.body.length

/-- Table of `beforeSet`. -/
def beforeTable : Array BitSet := BitSet.table Symbol.all beforeSet

/-- Table of `openItemsSet`. -/
def openItemsTable : Array BitSet := BitSet.table Nonterminal.all openItemsSet

/-- Table of `closedAtSet`. -/
def closedAtTable : Array BitSet := BitSet.table Lookahead.all closedAtSet

/-- The items whose dot stands right before `x`. -/
def before (x : Symbol) : BitSet :=
  .lookUp beforeTable x.index

/-- The items at the front of the rules of every phrase that `n` opens with. -/
def openItems (n : Nonterminal) : BitSet :=
  .lookUp openItemsTable n.index

/-- The items read to their end whose phrase may be followed by `a`. -/
def closedAt (a : Lookahead) : BitSet :=
  .lookUp closedAtTable a.index

theorem before_eq (x : Symbol) : before x = beforeSet x :=
  BitSet.lookUp_table x.all_index

theorem openItems_eq (n : Nonterminal) : openItems n = openItemsSet n :=
  BitSet.lookUp_table n.all_index

theorem closedAt_eq (a : Lookahead) : closedAt a = closedAtSet a :=
  BitSet.lookUp_table a.all_index

theorem mem_before {x : Symbol} {k : Nat} :
    k ∈ before x ↔ ∃ number dot r,
      Rule.all[number]? = some r ∧ r.body[dot]? = some x ∧ code number dot = k := by
  simp only [before_eq, beforeSet, BitSet.mem_ofList, List.mem_flatMap, List.mem_map,
    List.mem_filter, Prod.exists, List.mem_zipIdx_iff_getElem?, decide_eq_true_eq]
  constructor
  · rintro ⟨r, number, hr, y, dot, ⟨hy, rfl⟩, hk⟩
    exact ⟨number, dot, r, hr, hy, hk⟩
  · rintro ⟨number, dot, r, hr, hy, hk⟩
    exact ⟨r, number, hr, x, dot, ⟨hy, rfl⟩, hk⟩

theorem mem_openItems {n : Nonterminal} {k : Nat} :
    k ∈ openItems n ↔ ∃ number r,
      Rule.all[number]? = some r ∧ r.head.index ∈ n.openings ∧ code number 0 = k := by
  simp only [openItems_eq, openItemsSet, BitSet.mem_ofList, List.mem_map, List.mem_filter,
    Prod.exists, List.mem_zipIdx_iff_getElem?, BitSet.contains_eq_true_iff]
  constructor
  · rintro ⟨r, number, ⟨hr, hn⟩, hk⟩
    exact ⟨number, r, hr, hn, hk⟩
  · rintro ⟨number, r, hr, hn, hk⟩
    exact ⟨r, number, ⟨hr, hn⟩, hk⟩

theorem mem_closedAt {a : Lookahead} {k : Nat} :
    k ∈ closedAt a ↔ ∃ number r,
      Rule.all[number]? = some r ∧ a.index ∈ r.head.follow ∧ code number r.body.length = k := by
  simp only [closedAt_eq, closedAtSet, BitSet.mem_ofList, List.mem_map, List.mem_filter,
    Prod.exists, List.mem_zipIdx_iff_getElem?, BitSet.contains_eq_true_iff]
  constructor
  · rintro ⟨r, number, ⟨hr, hn⟩, hk⟩
    exact ⟨number, r, hr, hn, hk⟩
  · rintro ⟨number, r, hr, hn, hk⟩
    exact ⟨r, number, ⟨hr, hn⟩, hk⟩

end Item

end PvsIndex
