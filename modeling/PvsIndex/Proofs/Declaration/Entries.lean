import Mathlib.Data.List.Basic
import Mathlib.Data.List.Induction
import Mathlib.Data.List.Nodup
import PvsIndex.Proofs.Declaration.Scan

/-!
# What an index lists

A descriptor is listed if it is in the table of its kind, or was displaced from
it.  Adding a declaration lists it and takes nothing off the list: the new
descriptor comes in, and the one it displaces goes over to what was displaced
(`Index.kept_add`).  So an index keeps the additions it was made of, each as often
as it was made (`Index.kept_addAll`), and it lists exactly the declared names
(`Index.lists_ofDeclared`).  The names of a table are the names that were added,
without repetitions and in the order in which they first came up
(`Index.identifiers_addAll`).
-/

namespace PvsIndex

/-- What a table has after putting a descriptor, with what it displaces, is what
it had before, with the descriptor. -/
theorem Table.put_displaced_perm (t : Table) (d : Descriptor) :
    (t.put d ++ (t.get? d.identifier).toList).Perm (d :: t) := by
  induction t with
  | nil => exact .refl _
  | cons e t ih =>
      unfold get? at ih ⊢
      by_cases same : e.identifier = d.identifier
      · rw [put, if_pos same, List.find?_cons_of_pos (by simp [same])]
        exact (List.perm_append_singleton e t).cons d
      · rw [put, if_neg same, List.find?_cons_of_neg (by simp [same])]
        exact (ih.cons e).trans (.swap d e t)

/-- A name that is known keeps its place, a new one goes to the end. -/
theorem Table.nodup_put {t : Table} (distinct : t.identifiers.Nodup) (d : Descriptor) :
    (t.put d).identifiers.Nodup := by
  rw [identifiers_put]
  split
  next => exact distinct
  next new =>
      rw [← List.concat_eq_append]
      exact distinct.concat new

namespace Index

theorem shadowed_add (index : Index) (kind : DeclarationKind) (d : Descriptor) :
    (index.add kind d).shadowed =
      index.shadowed ++ ((index.table kind).get? d.identifier).toList.map (kind, ·) := by
  cases kind <;> rfl

/-! ## Everything that is kept -/

/-- Everything that an index holds, with its kind: both tables, and what was
displaced from them. -/
def kept (index : Index) : List (DeclarationKind × Descriptor) :=
  index.types.map (.type, ·) ++ index.formulas.map (.formula, ·) ++ index.shadowed

/-- An addition is kept, and nothing that was kept is lost. -/
theorem kept_add (index : Index) (kind : DeclarationKind) (d : Descriptor) :
    (index.add kind d).kept.Perm ((kind, d) :: index.kept) := by
  have moved := ((index.table kind).put_displaced_perm d).map (kind, ·)
  rw [List.map_append, List.map_cons] at moved
  rw [kept, shadowed_add, kept, List.perm_iff_count]
  intro x
  have counted := moved.count_eq x
  cases kind with
  | type =>
      have types : (index.add .type d).types = index.types.put d := rfl
      have formulas : (index.add .type d).formulas = index.formulas := rfl
      simp only [types, formulas, table, List.count_append, List.count_cons] at counted ⊢
      omega
  | formula =>
      have types : (index.add .formula d).types = index.types := rfl
      have formulas : (index.add .formula d).formulas = index.formulas.put d := rfl
      simp only [types, formulas, table, List.count_append, List.count_cons] at counted ⊢
      omega

theorem kept_addAll (index : Index) (as : List Addition) :
    (index.addAll as).kept.Perm ((as.map fun a => (a.kind, a.descriptor)) ++ index.kept) := by
  induction as generalizing index with
  | nil => exact .refl _
  | cons a as ih =>
      refine (ih (index.add a.kind a.descriptor)).trans ?_
      have here := (index.kept_add a.kind a.descriptor).append_left
        (as.map fun a => (a.kind, a.descriptor))
      exact here.trans List.perm_middle

/-- The descriptor is in the table of its kind, or was displaced from it. -/
def Lists (index : Index) (kind : DeclarationKind) (d : Descriptor) : Prop :=
  d ∈ index.table kind ∨ (kind, d) ∈ index.shadowed

theorem lists_iff_mem_kept {index : Index} {kind : DeclarationKind} {d : Descriptor} :
    index.Lists kind d ↔ (kind, d) ∈ index.kept := by
  cases kind <;> simp [Lists, kept, table]

/-- An index lists what it was made of. -/
theorem lists_ofDeclared {source : List Char} {ds : List Declared} {kind : DeclarationKind}
    {e : Descriptor} :
    (ofDeclared source ds).Lists kind e ↔ ∃ d ∈ ds, d.kind = kind ∧ d.descriptor source = e := by
  rw [ofDeclared_eq, lists_iff_mem_kept, (kept_addAll _ _).mem_iff]
  simp [kept, empty, Declared.addition]

/-! ## Names -/

theorem filter_concat {α : Type} (p : α → Bool) (as : List α) (a : α) :
    (as ++ [a]).filter p = if p a then as.filter p ++ [a] else as.filter p := by
  rw [List.filter_append, List.filter_singleton]
  cases p a <;> simp

theorem addAll_concat (index : Index) (as : List Addition) (a : Addition) :
    index.addAll (as ++ [a]) = (index.addAll as).add a.kind a.descriptor :=
  addAll_append index as [a]

/-- The additions of one kind. -/
def ofKind (kind : DeclarationKind) (as : List Addition) : List Addition :=
  as.filter fun a => a.kind = kind

theorem ofKind_concat (kind : DeclarationKind) (as : List Addition) (a : Addition) :
    ofKind kind (as ++ [a]) = if a.kind = kind then ofKind kind as ++ [a] else ofKind kind as := by
  rw [ofKind, filter_concat, ofKind]
  simp only [decide_eq_true_eq]

/-- The names that are added with a kind. -/
def namesOf (kind : DeclarationKind) (as : List Addition) : List (List Char) :=
  (ofKind kind as).map fun a => a.descriptor.identifier

/-- The names of a table, each where it first came up. -/
theorem identifiers_addAll (kind : DeclarationKind) (as : List Addition) :
    ((empty.addAll as).table kind).identifiers = (namesOf kind as).eraseDups := by
  induction as using List.reverseRecOn with
  | nil => cases kind <;> rfl
  | append_singleton as a ih =>
      rw [addAll_concat, table_add, namesOf, ofKind_concat]
      by_cases same : a.kind = kind
      · rw [if_pos same.symm, if_pos same, Table.identifiers_put, ih, List.map_append, ← namesOf,
          List.eraseDups_append]
        by_cases old : a.descriptor.identifier ∈ namesOf kind as
        · simp [old, List.removeAll]
        · simp [old, List.removeAll, List.eraseDups_cons]
      · rw [if_neg (Ne.symm same), if_neg same, ih, namesOf]

/-- However often a name is added, it has one place in a table. -/
theorem nodup_addAll (as : List Addition) (kind : DeclarationKind) :
    ((empty.addAll as).table kind).identifiers.Nodup := by
  induction as using List.reverseRecOn with
  | nil => cases kind <;> exact List.nodup_nil
  | append_singleton as a ih =>
      rw [addAll_concat, table_add]
      split
      · exact Table.nodup_put ih _
      · exact ih

/-- The texts of the names that are declared with a kind. -/
def textsOf (kind : DeclarationKind) (ds : List Declared) : List (List Char) :=
  (ds.filter fun d => d.kind = kind).map fun d => d.name.text

/-- The names of a table, each where it was first declared. -/
theorem identifiers_ofDeclared (source : List Char) (kind : DeclarationKind) (ds : List Declared) :
    ((ofDeclared source ds).table kind).identifiers = (textsOf kind ds).eraseDups := by
  have names : namesOf kind (ds.map (Declared.addition source)) = textsOf kind ds := by
    rw [namesOf, ofKind, textsOf, List.filter_map, List.map_map]
    rfl
  rw [ofDeclared_eq, identifiers_addAll, names]

end Index

end PvsIndex
