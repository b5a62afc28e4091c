import PvsIndex.Terminal

/-!
# Grammar symbols

The phrases of the theory language, beside its terminals.  Every phrase has a
`Role` that says what becomes of it in a tree:

  * a *named* phrase is always a node of its own;
  * a *folded* phrase is a node only when it has several parts, and otherwise
    is replaced by its single part (this is how eleven levels of operator
    precedence leave no trace around a plain name);
  * a *spliced* phrase is never a node, its parts go to the phrase around it.
    Repetitions are of this kind.

Symbols are numbered (`Symbol.index`), so that sets of them can be bit sets.
-/

namespace PvsIndex

/-- The phrases of the language. -/
inductive Nonterminal where
  | start | theory | theoryFormals | theoryFormal | theoryPart
  | importing | theoryName
  | typeDeclaration | typeKind | typeDefinition
  | formulaDeclaration | formulaKeyword
  | constDeclaration | constDefinition | varDeclaration
  | bindingGroup | binding
  | typeExpr | typeName | actuals | actual | functionType | tupleType
  | subtype | enumType | predicateSubtype
  | expr | bindingExpr | bindings | iffExpr | impliesExpr | orExpr | andExpr | notExpr
  | comparison | additive | multiplicative | unary | application | primary
  | tupleExpr | ifExpr | identifier
  | theories | theoryParts | moreFormals | moreNames | moreTheoryNames | bindingGroups
  | moreBindings | moreActuals | moreTypes | moreExprs | elsifBranches
deriving DecidableEq

/-- What becomes of a phrase in a tree. -/
inductive Role where
  | named (kind : String)
  | folded (kind : String)
  | spliced

namespace Nonterminal

/-- The role of each phrase, with the kind of the nodes it makes. -/
def role : Nonterminal → Role
  | start => .named "start"
  | theory => .named "theory"
  | theoryFormals => .named "theory_formals"
  | theoryFormal => .named "theory_formal"
  | theoryPart => .spliced
  | importing => .named "importing"
  | theoryName => .named "theory_name"
  | typeDeclaration => .named "type_declaration"
  | typeKind => .named "type_kind"
  | typeDefinition => .named "type_definition"
  | formulaDeclaration => .named "formula_declaration"
  | formulaKeyword => .spliced
  | constDeclaration => .named "const_declaration"
  | constDefinition => .named "const_definition"
  | varDeclaration => .named "var_declaration"
  | bindingGroup => .named "binding_group"
  | binding => .named "binding"
  | typeExpr => .folded "type_expr"
  | typeName => .named "type_name"
  | actuals => .named "actuals"
  | actual => .spliced
  | functionType => .named "function_type"
  | tupleType => .named "tuple_type"
  | subtype => .named "subtype"
  | enumType => .named "enum_type"
  | predicateSubtype => .named "predicate_subtype"
  | expr => .folded "expr"
  | bindingExpr => .named "binding_expr"
  | bindings => .spliced
  | iffExpr => .folded "iff_expr"
  | impliesExpr => .folded "implies_expr"
  | orExpr => .folded "or_expr"
  | andExpr => .folded "and_expr"
  | notExpr => .folded "not_expr"
  | comparison => .folded "comparison"
  | additive => .folded "additive"
  | multiplicative => .folded "multiplicative"
  | unary => .folded "unary"
  | application => .folded "application"
  | primary => .folded "primary"
  | tupleExpr => .named "tuple_expr"
  | ifExpr => .named "if_expr"
  | identifier => .named "identifier"
  | theories => .spliced
  | theoryParts => .spliced
  | moreFormals => .spliced
  | moreNames => .spliced
  | moreTheoryNames => .spliced
  | bindingGroups => .spliced
  | moreBindings => .spliced
  | moreActuals => .spliced
  | moreTypes => .spliced
  | moreExprs => .spliced
  | elsifBranches => .spliced

/-- Every phrase, in the order of the enumeration. -/
def all : List Nonterminal :=
  [start, theory, theoryFormals, theoryFormal, theoryPart,
   importing, theoryName,
   typeDeclaration, typeKind, typeDefinition,
   formulaDeclaration, formulaKeyword,
   constDeclaration, constDefinition, varDeclaration,
   bindingGroup, binding,
   typeExpr, typeName, actuals, actual, functionType, tupleType,
   subtype, enumType, predicateSubtype,
   expr, bindingExpr, bindings, iffExpr, impliesExpr, orExpr, andExpr, notExpr,
   comparison, additive, multiplicative, unary, application, primary,
   tupleExpr, ifExpr, identifier,
   theories, theoryParts, moreFormals, moreNames, moreTheoryNames, bindingGroups,
   moreBindings, moreActuals, moreTypes, moreExprs, elsifBranches]

/-- The position of a phrase among all of them. -/
def index (n : Nonterminal) : Nat :=
  n.ctorIdx

theorem all_index (n : Nonterminal) : all[n.index]? = some n := by cases n <;> rfl

theorem mem_all (n : Nonterminal) : n ∈ all :=
  List.mem_of_getElem? (all_index n)

end Nonterminal

/-- What the body of a rule is made of. -/
inductive Symbol where
  | terminal (t : Terminal)
  | phrase (n : Nonterminal)
deriving DecidableEq

namespace Symbol

/-- The position of a symbol: terminals first, then phrases. -/
def index : Symbol → Nat
  | terminal t => t.index
  | phrase n => Terminal.count + n.index

/-- Every symbol. -/
def all : List Symbol :=
  Terminal.all.map terminal ++ Nonterminal.all.map phrase

theorem all_index (x : Symbol) : all[x.index]? = some x := by
  cases x with
  | terminal t =>
    have h : t.index < (Terminal.all.map terminal).length := by
      rw [List.length_map, Terminal.length_all]; exact t.index_lt_count
    rw [all, index, List.getElem?_append_left h, List.getElem?_map, t.all_index]
    rfl
  | phrase n =>
    have h : (Terminal.all.map terminal).length ≤ Terminal.count + n.index := by
      rw [List.length_map, Terminal.length_all]; exact Nat.le_add_right ..
    rw [all, index, List.getElem?_append_right h, List.length_map, Terminal.length_all,
      Nat.add_sub_cancel_left, List.getElem?_map, n.all_index]
    rfl

instance : Coe Terminal Symbol := ⟨terminal⟩
instance : Coe Mark Symbol := ⟨fun m => terminal (.mark m)⟩
instance : Coe Keyword Symbol := ⟨fun k => terminal (.keyword k)⟩
instance : Coe Nonterminal Symbol := ⟨phrase⟩

end Symbol

end PvsIndex
