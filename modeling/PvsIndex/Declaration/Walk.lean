import PvsIndex.Declaration.Index
import PvsIndex.Tree.Span

/-!
# Walking a tree for declarations

The nodes of a tree are visited in order, each before what is below it.  A
type declaration yields an addition for each of its names, a formula
declaration for its one name; other nodes yield nothing.  The names are the
identifiers in front of the first colon.

A node can be at fault: it cannot be located, or a formula has not exactly one
name.  `Node.findings` lists what a node yields in the order in which it is
looked up, faults included, and `Index.absorb` adds up to the first fault.
-/

namespace PvsIndex

/-- A declaration to be added. -/
structure Addition where
  kind : DeclarationKind
  descriptor : Descriptor
deriving DecidableEq

namespace Node

/-- The identifiers in front of the first colon. -/
def declaredNames (n : Node) : List Node :=
  (n.children.takeWhile fun child => child.kind ≠ "COLON").filter fun child =>
    child.kind = "identifier"

/-- A declared name is an identifier that has no colon before it. -/
theorem mem_declaredNames {n name : Node} :
    name ∈ n.declaredNames ↔ name.kind = "identifier" ∧
      ∃ before after, n.children = before ++ name :: after ∧
        ∀ child ∈ before, child.kind ≠ "COLON" := by
  rw [declaredNames, List.mem_filter, decide_eq_true_eq, and_comm]
  refine and_congr_right fun identifier => ?_
  constructor
  · intro inFront
    obtain ⟨before, rest, cut⟩ := List.append_of_mem inFront
    refine ⟨before, rest ++ n.children.dropWhile fun child => child.kind ≠ "COLON", ?_, ?_⟩
    · rw [← List.cons_append, ← List.append_assoc, ← cut, List.takeWhile_append_dropWhile]
    · intro child earlier
      have kept : child ∈ n.children.takeWhile fun child => child.kind ≠ "COLON" := by
        rw [cut]
        exact List.mem_append_left _ earlier
      exact of_decide_eq_true (List.all_eq_true.mp List.all_takeWhile child kept)
  · rintro ⟨before, after, split, noColon⟩
    rw [split, List.takeWhile_append_of_pos fun child earlier => decide_eq_true (noColon child earlier),
      List.takeWhile_cons_of_pos (by simp [identifier])]
    exact List.mem_append_right _ List.mem_cons_self

/-- The addition for a name, in a declaration with this text. -/
def addition (kind : DeclarationKind) (name : Node) (ts : TokenStream) (declaration : List Char) :
    Except TreeFault Addition :=
  (name.span ts).map fun span =>
    ⟨kind, name.text, span.start.line, span.start.character, declaration⟩

/-- What a type declaration yields: its text is looked up first, then each name. -/
def typeFindings (n : Node) (ts : TokenStream) : List (Except TreeFault Addition) :=
  match n.sourceText ts with
  | .error fault => [.error fault]
  | .ok declaration => n.declaredNames.map fun name => name.addition .type ts declaration

/-- What a formula declaration yields: its names are counted first, then its
text is looked up, then the name. -/
def formulaFindings (n : Node) (ts : TokenStream) : List (Except TreeFault Addition) :=
  match n.declaredNames with
  | [name] =>
    match n.sourceText ts with
    | .error fault => [.error fault]
    | .ok declaration => [name.addition .formula ts declaration]
  | names => [.error (.nameCount n.kind names.length)]

/-- What one node yields. -/
def findings (n : Node) (ts : TokenStream) : List (Except TreeFault Addition) :=
  if n.kind = "type_declaration" then n.typeFindings ts
  else if n.kind = "formula_declaration" then n.formulaFindings ts
  else []

/-- What a tree yields, node by node. -/
def allFindings (root : Node) (ts : TokenStream) : List (Except TreeFault Addition) :=
  root.preorder.flatMap fun n => n.findings ts

end Node

namespace Index

/-- Add what was found, up to the first fault. -/
def absorb (index : Index) : List (Except TreeFault Addition) → Index × Option TreeFault
  | [] => (index, none)
  | .error fault :: _ => (index, some fault)
  | .ok a :: rest => (index.add a.kind a.descriptor).absorb rest

/-- Add the declarations of a tree to an index, up to the first fault. -/
def walk (index : Index) (root : Node) (ts : TokenStream) : Index × Option TreeFault :=
  index.absorb (root.allFindings ts)

/-- Additions to an index, one after the other. -/
def addAll (index : Index) (as : List Addition) : Index :=
  as.foldl (fun index a => index.add a.kind a.descriptor) index

@[simp] theorem addAll_nil (index : Index) : index.addAll [] = index := rfl

@[simp] theorem addAll_cons (index : Index) (a : Addition) (as : List Addition) :
    index.addAll (a :: as) = (index.add a.kind a.descriptor).addAll as := rfl

theorem addAll_append (index : Index) (as bs : List Addition) :
    index.addAll (as ++ bs) = (index.addAll as).addAll bs :=
  List.foldl_append

/-- What was found without a fault is added, one after the other. -/
theorem absorb_ok (as : List Addition) (index : Index) :
    index.absorb (as.map .ok) = (index.addAll as, none) := by
  induction as generalizing index with
  | nil => rfl
  | cons a as ih => exact ih (index.add a.kind a.descriptor)

end Index

end PvsIndex
