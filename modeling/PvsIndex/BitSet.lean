/-!
# Bit sets: finite sets of numbers

A finite set of natural numbers, kept as the binary digits of one number:
`n` is a member when digit `n` is one.  Union, intersection and moving every
member up by one are then single operations on numbers, and two sets are equal
exactly when the numbers are.  The grammar's tables and the states of the
parser are such sets.
-/

namespace PvsIndex

/-- A finite set of natural numbers: the binary digits of `bits` that are one. -/
structure BitSet where
  bits : Nat
deriving DecidableEq

namespace BitSet

/-- The set without members. -/
def empty : BitSet := ⟨0⟩

/-- Is `n` a member? -/
def contains (s : BitSet) (n : Nat) : Bool :=
  s.bits.testBit n

instance : Membership Nat BitSet := ⟨fun s n => s.contains n = true⟩

instance (n : Nat) (s : BitSet) : Decidable (n ∈ s) :=
  inferInstanceAs (Decidable (s.contains n = true))

/-- The set whose only member is `n`. -/
def singleton (n : Nat) : BitSet := ⟨1 <<< n⟩

/-- What is in one of two sets. -/
def union (s t : BitSet) : BitSet := ⟨s.bits ||| t.bits⟩

/-- What is in both of two sets. -/
def inter (s t : BitSet) : BitSet := ⟨s.bits &&& t.bits⟩

/-- Every member moved up by one. -/
def succ (s : BitSet) : BitSet := ⟨s.bits <<< 1⟩

/-- Has the set no members? -/
def isEmpty (s : BitSet) : Bool := s.bits == 0

/-- The greatest member, if there is one. -/
def max? (s : BitSet) : Option Nat :=
  if s.isEmpty then none else some s.bits.log2

/-- The set of the numbers in a list. -/
def ofList (ns : List Nat) : BitSet :=
  ns.foldl (fun s n => s.union (singleton n)) empty

/-- The union of a list of sets. -/
def unionAll (ss : List BitSet) : BitSet :=
  ss.foldl union empty

/-- A set for each of the things in a list, to be read by position. -/
def table {α : Type} (things : List α) (f : α → BitSet) : Array BitSet :=
  (things.map f).toArray

/-- The set at a position of a table. -/
def lookUp (t : Array BitSet) (i : Nat) : BitSet :=
  t[i]?.getD empty

@[simp] theorem contains_eq_true_iff {s : BitSet} {n : Nat} : s.contains n = true ↔ n ∈ s := Iff.rfl

theorem mem_def {n : Nat} {s : BitSet} : n ∈ s ↔ s.bits.testBit n = true := Iff.rfl

@[simp] theorem not_mem_empty (n : Nat) : n ∉ empty := by
  simp [mem_def, empty]

@[simp] theorem mem_singleton {n m : Nat} : n ∈ singleton m ↔ n = m := by
  rw [mem_def, singleton, Nat.one_shiftLeft, Nat.testBit_two_pow]
  simp [eq_comm]

@[simp] theorem mem_union {n : Nat} {s t : BitSet} : n ∈ s.union t ↔ n ∈ s ∨ n ∈ t := by
  simp [mem_def, union]

@[simp] theorem mem_inter {n : Nat} {s t : BitSet} : n ∈ s.inter t ↔ n ∈ s ∧ n ∈ t := by
  simp [mem_def, inter]

theorem mem_succ {n : Nat} {s : BitSet} : n ∈ s.succ ↔ ∃ m ∈ s, n = m + 1 := by
  simp only [mem_def, succ, Nat.testBit_shiftLeft, Bool.and_eq_true, decide_eq_true_eq]
  constructor
  · intro ⟨h, hm⟩
    exact ⟨n - 1, hm, by omega⟩
  · rintro ⟨m, hm, rfl⟩
    exact ⟨by omega, hm⟩

/-- Two sets with the same members are one set. -/
theorem ext {s t : BitSet} (h : ∀ n, n ∈ s ↔ n ∈ t) : s = t := by
  have bits_eq : s.bits = t.bits :=
    Nat.eq_of_testBit_eq fun n => Bool.eq_iff_iff.mpr (h n)
  cases s; cases t; simp_all

theorem isEmpty_eq_false_iff {s : BitSet} : s.isEmpty = false ↔ ∃ n, n ∈ s := by
  constructor
  · intro h
    have ne : s.bits ≠ 0 := by simpa [isEmpty] using h
    obtain ⟨n, hn⟩ := Nat.exists_testBit_of_ne_zero ne
    exact ⟨n, hn⟩
  · intro ⟨n, hn⟩
    have ne : s.bits ≠ 0 := fun h => by simp [mem_def, h] at hn
    simpa [isEmpty] using ne

/-- The greatest member is a member. -/
theorem mem_of_max? {n : Nat} {s : BitSet} (h : s.max? = some n) : n ∈ s := by
  unfold max? at h
  split at h
  · simp at h
  next ne =>
    have hn : s.bits ≠ 0 := by simpa [isEmpty] using ne
    cases h
    exact Nat.testBit_log2 hn

theorem mem_ofList {n : Nat} {ns : List Nat} : n ∈ ofList ns ↔ n ∈ ns := by
  suffices ∀ s : BitSet, n ∈ ns.foldl (fun s n => s.union (singleton n)) s ↔ n ∈ s ∨ n ∈ ns by
    simpa [ofList] using this empty
  induction ns with
  | nil => simp
  | cons m ns ih => intro s; simp [ih, or_assoc]

theorem mem_unionAll {n : Nat} {ss : List BitSet} : n ∈ unionAll ss ↔ ∃ s ∈ ss, n ∈ s := by
  suffices ∀ s : BitSet, n ∈ ss.foldl union s ↔ n ∈ s ∨ ∃ t ∈ ss, n ∈ t by
    simpa [unionAll] using this empty
  induction ss with
  | nil => simp
  | cons t ss ih => intro s; simp [ih, or_assoc]

theorem lookUp_table {α : Type} {things : List α} {f : α → BitSet} {i : Nat} {a : α}
    (h : things[i]? = some a) : lookUp (table things f) i = f a := by
  simp [lookUp, table, h]

end BitSet

end PvsIndex
