import PvsIndex.Proofs.Declaration.Entries

/-!
# The history of an index

An index is what a row of additions has made of the empty index, and everything
in it can be told from that row.  A table has the names that were added with its
kind, each where it first came up, with the descriptor that was added last.  What
was displaced is listed addition by addition: an addition displaces the latest
descriptor of its name, if there is one (`displacedBy?`).  Nothing is lost and
nothing is there twice, and each kind is as if the other had never been added.

All of this is shown for one addition more behind a row that is already
understood, since what an addition does is settled by the additions before it.
-/

namespace PvsIndex

/-- What an addition is filed under: its kind and its name. -/
def Addition.key (a : Addition) : DeclarationKind × List Char :=
  (a.kind, a.descriptor.identifier)

namespace Index

/-- The descriptor that was added last under a key. -/
def latest? (as : List Addition) (key : DeclarationKind × List Char) : Option Descriptor :=
  (as.filter fun a => a.key = key).getLast?.map Addition.descriptor

/-- What the addition number `i` displaces: the latest descriptor among the
additions before it that are filed under its key. -/
def displacedBy? (as : List Addition) (i : Nat) : Option (DeclarationKind × Descriptor) :=
  as[i]?.bind fun a => (latest? (as.take i) a.key).map (a.kind, ·)

/-! ## One addition more -/

section Last

variable (as : List Addition) (a : Addition)

theorem latest?_concat (key : DeclarationKind × List Char) :
    latest? (as ++ [a]) key = if a.key = key then some a.descriptor else latest? as key := by
  rw [latest?, filter_concat]
  by_cases same : a.key = key
  · rw [if_pos same, if_pos (decide_eq_true same), List.getLast?_concat, Option.map_some]
  · rw [if_neg same, if_neg (by simpa using same), latest?]

/-- The additions before are displaced as they were. -/
theorem displacedBy?_concat_of_lt {i : Nat} (before : i < as.length) :
    displacedBy? (as ++ [a]) i = displacedBy? as i := by
  rw [displacedBy?, displacedBy?, List.getElem?_append_left before,
    List.take_append_of_le_length (Nat.le_of_lt before)]

theorem displacedBy?_concat_length :
    displacedBy? (as ++ [a]) as.length = (latest? as a.key).map (a.kind, ·) := by
  rw [displacedBy?, List.getElem?_concat_length, List.take_left, Option.bind_some]

theorem filterMap_displacedBy?_concat :
    (List.range (as ++ [a]).length).filterMap (displacedBy? (as ++ [a])) =
      (List.range as.length).filterMap (displacedBy? as) ++
        ((latest? as a.key).map (a.kind, ·)).toList := by
  have before : (List.range as.length).filterMap (displacedBy? (as ++ [a])) =
      (List.range as.length).filterMap (displacedBy? as) := by
    refine List.filterMap_congr ?_
    intro i hi
    exact displacedBy?_concat_of_lt as a (List.mem_range.mp hi)
  rw [List.length_append, List.length_singleton, List.range_succ, List.filterMap_append, before,
    List.filterMap_cons, displacedBy?_concat_length]
  cases (latest? as a.key).map (a.kind, ·) <;> rfl

end Last

/-! ## All additions -/

/-- A name has the descriptor that was added last. -/
theorem get?_addAll (as : List Addition) (kind : DeclarationKind) (identifier : List Char) :
    ((empty.addAll as).table kind).get? identifier = latest? as (kind, identifier) := by
  induction as using List.reverseRecOn with
  | nil => cases kind <;> rfl
  | append_singleton as a ih =>
      rw [addAll_concat, table_add, latest?_concat]
      by_cases same : a.kind = kind
      · have keys : a.key = (kind, identifier) ↔ a.descriptor.identifier = identifier := by
          rw [Addition.key, Prod.mk.injEq, and_iff_right same]
        rw [if_pos same.symm, Table.get?_put, ih]
        simp only [keys]
      · have other : a.key ≠ (kind, identifier) := fun h => same (congrArg Prod.fst h)
        rw [if_neg (Ne.symm same), if_neg other, ih]

/-- Displaced descriptors are listed in the order of the additions that displaced
them. -/
theorem shadowed_addAll (as : List Addition) :
    (empty.addAll as).shadowed = (List.range as.length).filterMap (displacedBy? as) := by
  induction as using List.reverseRecOn with
  | nil => rfl
  | append_singleton as a ih =>
      rw [addAll_concat, shadowed_add, ih, get?_addAll, filterMap_displacedBy?_concat,
        Option.toList_map]
      rfl

theorem filter_map_kind (kind other : DeclarationKind) (ds : List Descriptor) :
    (ds.map (other, ·)).filter (fun x => x.1 = kind) =
      if other = kind then ds.map (other, ·) else [] := by
  rw [List.filter_map]
  by_cases same : other = kind <;> simp [Function.comp_def, same]

/-- A kind does not take notice of the additions of the other. -/
theorem addAll_ofKind (kind : DeclarationKind) (as : List Addition) :
    (empty.addAll (ofKind kind as)).table kind = (empty.addAll as).table kind ∧
      (empty.addAll (ofKind kind as)).shadowed =
        (empty.addAll as).shadowed.filter fun x => x.1 = kind := by
  induction as using List.reverseRecOn with
  | nil => exact ⟨rfl, rfl⟩
  | append_singleton as a ih =>
      obtain ⟨table, shadowed⟩ := ih
      rw [ofKind_concat, addAll_concat, table_add, shadowed_add, List.filter_append,
        filter_map_kind]
      by_cases same : a.kind = kind
      · subst same
        rw [if_pos rfl, if_pos rfl, if_pos rfl, addAll_concat, table_add, shadowed_add, if_pos rfl,
          table, shadowed]
        exact ⟨rfl, rfl⟩
      · rw [if_neg same, if_neg (Ne.symm same), if_neg same, List.append_nil]
        exact ⟨table, shadowed⟩

/-- What any row of additions makes of the empty index.  A table has its names in
the order in which they first came up, each with its last descriptor; what was
displaced is listed in the order of displacement; every addition is in exactly one
of the three places, and the kinds have nothing to do with each other. -/
theorem index_of_additions (as : List Addition) :
    (∀ kind, ((empty.addAll as).table kind).identifiers = (namesOf kind as).eraseDups ∧
      ∀ identifier,
        ((empty.addAll as).table kind).get? identifier = latest? as (kind, identifier)) ∧
      (empty.addAll as).shadowed = (List.range as.length).filterMap (displacedBy? as) ∧
      (empty.addAll as).kept.Perm (as.map fun a => (a.kind, a.descriptor)) ∧
      ∀ kind, (empty.addAll (ofKind kind as)).table kind = (empty.addAll as).table kind ∧
        (empty.addAll (ofKind kind as)).shadowed =
          (empty.addAll as).shadowed.filter fun x => x.1 = kind := by
  refine ⟨?_, shadowed_addAll as, ?_, fun kind => addAll_ofKind kind as⟩
  · intro kind
    exact ⟨identifiers_addAll kind as, get?_addAll as kind⟩
  · have all := kept_addAll empty as
    have nothing : empty.kept = [] := rfl
    rwa [nothing, List.append_nil] at all

end Index

end PvsIndex
