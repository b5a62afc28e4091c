/-!
# The declaration index

Two tables of named declarations, one for types and one for formulas.  A table
keeps one descriptor for each name, in the order in which names first came up:
a later declaration of the same name takes the place of the earlier one.  What
was displaced is kept in `shadowed`, in the order of displacement.
-/

namespace PvsIndex

/-- What is declared. -/
inductive DeclarationKind where
  | type
  | formula
deriving DecidableEq

/-- The word for a kind of declaration. -/
def DeclarationKind.word : DeclarationKind → String
  | type => "type"
  | formula => "formula"

/-- A named declaration.  Its name stands on `line`, counted from one, and starts at
`character`, counted from zero; `declaration` is the text of the whole of it. -/
structure Descriptor where
  identifier : List Char
  line : Int
  character : Int
  declaration : List Char
deriving DecidableEq

/-- Descriptors with different names, in the order in which the names came up. -/
abbrev Table := List Descriptor

namespace Table

/-- The descriptor of a name. -/
def get? (t : Table) (identifier : List Char) : Option Descriptor :=
  t.find? fun d => d.identifier = identifier

/-- Put a descriptor in the place of the one with the same name, or at the end. -/
def put : Table → Descriptor → Table
  | [], d => [d]
  | e :: es, d => if e.identifier = d.identifier then d :: es else e :: put es d

/-- The names of a table. -/
def identifiers (t : Table) : List (List Char) :=
  t.map Descriptor.identifier

/-- A descriptor is found under its name after it was put; other names are untouched. -/
theorem get?_put (t : Table) (d : Descriptor) (identifier : List Char) :
    (t.put d).get? identifier = if d.identifier = identifier then some d else t.get? identifier := by
  induction t with
  | nil => by_cases found : d.identifier = identifier <;> simp [put, get?, found]
  | cons e es ih =>
    unfold get? at ih ⊢
    unfold put
    by_cases same : e.identifier = d.identifier
    · by_cases found : d.identifier = identifier <;> simp [same, found]
    · rw [if_neg same]
      by_cases found : e.identifier = identifier
      · have other : ¬ d.identifier = identifier := fun h => same (found.trans h.symm)
        simp [found, other]
      · simp [found, ih]

/-- A new name goes to the end; a known one keeps its place. -/
theorem identifiers_put (t : Table) (d : Descriptor) :
    (t.put d).identifiers =
      if d.identifier ∈ t.identifiers then t.identifiers else t.identifiers ++ [d.identifier] := by
  unfold identifiers
  induction t with
  | nil => simp [put]
  | cons e es ih =>
    unfold put
    by_cases same : e.identifier = d.identifier
    · simp [same]
    · have other : ¬ d.identifier = e.identifier := fun h => same h.symm
      by_cases known : d.identifier ∈ es.map Descriptor.identifier <;>
        simp_all

end Table

/-- The declarations of a text; `shadowed` is what was displaced, in the order of
displacement. -/
structure Index where
  types : Table
  formulas : Table
  shadowed : List (DeclarationKind × Descriptor)
deriving DecidableEq

namespace Index

/-- The index without declarations. -/
def empty : Index := ⟨[], [], []⟩

/-- The table for one kind of declaration. -/
def table (index : Index) : DeclarationKind → Table
  | .type => index.types
  | .formula => index.formulas

/-- Add a declaration; what it displaces is remembered. -/
def add (index : Index) (kind : DeclarationKind) (d : Descriptor) : Index :=
  let displaced := ((index.table kind).get? d.identifier).toList.map fun old => (kind, old)
  match kind with
  | .type =>
    { index with types := index.types.put d, shadowed := index.shadowed ++ displaced }
  | .formula =>
    { index with formulas := index.formulas.put d, shadowed := index.shadowed ++ displaced }

/-- Adding a declaration changes the table of its own kind only. -/
theorem table_add (index : Index) (kind other : DeclarationKind) (d : Descriptor) :
    (index.add kind d).table other =
      if other = kind then (index.table other).put d else index.table other := by
  cases kind <;> cases other <;> rfl

end Index

end PvsIndex
