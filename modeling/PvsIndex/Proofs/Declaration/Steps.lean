import Mathlib.Data.List.Forall2
import PvsIndex.Proofs.Tree.Location
import PvsIndex.Declaration.Walk

/-!
# The steps of a walk

A walk does one thing at a time: it looks up the text of a declaration, counts
the names of a formula, looks up where a name stands, and adds a name.  Which
steps these are, and in which order, can be read off any tree, well formed or not
(`Node.steps`).  What a step needs in order to go through, and what is wrong if it
does not, is said by `WalkStep.Passes` and `WalkStep.Fails`, from the numbers in
the nodes and the tokens of the stream alone.

`Performs` is the walk as a course of steps: it goes on after a step that passes
and is over with the first that fails, and what has been added by then stays.  The
walk of the library keeps lookups and additions together, as findings of a node;
that it is this course of steps is shown node by node, whatever comes behind
(`Follows.own`).
-/

namespace PvsIndex

/-! ## Looking up a node -/

namespace TokenStream

variable {ts : TokenStream} {i : Int}

/-- The stream has a token with this number, counted from its start or, below
zero, from its end. -/
def HasNumber (ts : TokenStream) (i : Int) : Prop :=
  -(ts.tokens.length : Int) ≤ i ∧ i < ts.tokens.length

theorem token?_eq_none_iff : ts.token? i = none ↔ ¬ ts.HasNumber i := by
  unfold token? HasNumber
  by_cases below : i < 0
  · simp only [below, if_true]
    split
    next short =>
        simp only [true_iff]
        omega
    next long =>
        rw [List.getElem?_eq_none_iff]
        omega
  · simp only [below, if_false]
    rw [List.getElem?_eq_none_iff]
    omega

theorem hasNumber_of_token? {t : Token} (h : ts.token? i = some t) : ts.HasNumber i := by
  by_contra outside
  rw [← token?_eq_none_iff, h] at outside
  cases outside

end TokenStream

namespace Node

variable {ts : TokenStream} {n : Node}

/-- The node goes from one token of the stream through another. -/
structure Reaches (ts : TokenStream) (n : Node) (first last : Token) : Prop where
  start : ∃ i, n.start = some i ∧ ts.token? i = some first
  stop : ∃ i, n.stop = some i ∧ ts.token? i = some last

/-- The node cannot be found in the stream, for this reason and in these words. -/
inductive Unplaced (ts : TokenStream) (n : Node) : TreeFault → String → Prop where
  | empty : n.start = none ∨ n.stop = none →
      Unplaced ts n (.emptySpan n.kind) ("syntax node '" ++ n.kind ++ "' covers no tokens")
  | outside {first last : Int} : n.start = some first → n.stop = some last →
      ¬ ts.HasNumber first ∨ ¬ ts.HasNumber last →
        Unplaced ts n .noSuchToken "list index out of range"

/-- A node that goes from token to token can be found. -/
theorem Reaches.placed {first last : Token} (h : n.Reaches ts first last) (fault : TreeFault)
    (message : String) : ¬ n.Unplaced ts fault message := by
  obtain ⟨⟨i, start, found⟩, ⟨j, stop, found'⟩⟩ := h
  intro unplaced
  cases unplaced with
  | empty nothing =>
      rcases nothing with missing | missing
      · rw [start] at missing
        cases missing
      · rw [stop] at missing
        cases missing
  | outside start' stop' outside =>
      obtain rfl := Option.some.inj (start.symm.trans start')
      obtain rfl := Option.some.inj (stop.symm.trans stop')
      rcases outside with beyond | beyond
      · exact beyond (TokenStream.hasNumber_of_token? found)
      · exact beyond (TokenStream.hasNumber_of_token? found')

/-- Looking up a node finds its first and last token, or fails. -/
theorem span_cases (ts : TokenStream) (n : Node) :
    (∃ first last, n.Reaches ts first last ∧ n.span ts = .ok ⟨first.start, last.stop⟩) ∨
      ∃ fault, n.Unplaced ts fault fault.message ∧ n.span ts = .error fault := by
  cases start : n.start with
  | none => exact Or.inr ⟨_, .empty (Or.inl start), by rw [span, start]⟩
  | some i =>
      cases stop : n.stop with
      | none => exact Or.inr ⟨_, .empty (Or.inr stop), by rw [span, start, stop]⟩
      | some j =>
          have here : n.span ts = ts.span i j := by rw [span, start, stop]
          rw [here, TokenStream.span]
          cases first : ts.token? i with
          | none =>
              have outside := TokenStream.token?_eq_none_iff.mp first
              exact Or.inr ⟨_, .outside start stop (Or.inl outside), rfl⟩
          | some f =>
              cases last : ts.token? j with
              | none =>
                  have outside := TokenStream.token?_eq_none_iff.mp last
                  exact Or.inr ⟨_, .outside start stop (Or.inr outside), rfl⟩
              | some l => exact Or.inl ⟨f, l, ⟨⟨i, start, first⟩, ⟨j, stop, last⟩⟩, rfl⟩

end Node

/-! ## Steps -/

/-- One step of a walk: look up the text of a declaration, check that it has exactly
one name, look up where a name stands, or add a name of a declaration. -/
inductive WalkStep where
  | source (n : Node)
  | count (n : Node)
  | place (name : Node)
  | add (kind : DeclarationKind) (n name : Node)

namespace WalkStep

/-- The step goes through, and makes these additions.  What is added stands where its
name starts, and has the text of the declaration. -/
inductive Passes (ts : TokenStream) : WalkStep → List Addition → Prop where
  | source {n : Node} {first last : Token} : n.Reaches ts first last → Passes ts (.source n) []
  | count {n : Node} : n.declaredNames.length = 1 → Passes ts (.count n) []
  | place {name : Node} {first last : Token} :
      name.Reaches ts first last → Passes ts (.place name) []
  | add {kind : DeclarationKind} {n name : Node} {first last nameFirst nameLast : Token} :
      n.Reaches ts first last → name.Reaches ts nameFirst nameLast →
        Passes ts (.add kind n name)
          [⟨kind, name.text, nameFirst.start.line, nameFirst.start.column - 1,
            ts.source.extract first.start.offset last.stop.offset⟩]

/-- The step does not go through, for this reason and in these words. -/
inductive Fails (ts : TokenStream) : WalkStep → TreeFault → String → Prop where
  | source {n : Node} {fault : TreeFault} {message : String} :
      n.Unplaced ts fault message → Fails ts (.source n) fault message
  | count {n : Node} : n.declaredNames.length ≠ 1 →
      Fails ts (.count n) (.nameCount n.kind n.declaredNames.length)
        ("malformed '" ++ n.kind ++ "' node: expected exactly one name, found " ++
          toString n.declaredNames.length)
  | place {name : Node} {fault : TreeFault} {message : String} :
      name.Unplaced ts fault message → Fails ts (.place name) fault message

theorem Passes.not_fails {ts : TokenStream} {s : WalkStep} {added : List Addition}
    (h : s.Passes ts added) (fault : TreeFault) (message : String) :
    ¬ s.Fails ts fault message := by
  intro fails
  cases h with
  | source reaches =>
      cases fails with
      | source unplaced => exact reaches.placed fault message unplaced
  | count one =>
      cases fails with
      | count other => exact other one
  | place reaches =>
      cases fails with
      | place unplaced => exact reaches.placed fault message unplaced
  | add _ _ => cases fails

end WalkStep

namespace Node

/-- The steps for the names of a declaration. -/
def nameSteps (kind : DeclarationKind) (n : Node) : List WalkStep :=
  n.declaredNames.flatMap fun name => [.place name, .add kind n name]

/-- The steps at one node. -/
def ownSteps (n : Node) : List WalkStep :=
  if n.kind = "type_declaration" then .source n :: n.nameSteps .type
  else if n.kind = "formula_declaration" then .count n :: .source n :: n.nameSteps .formula
  else []

mutual

/-- The steps of a walk: those at the node itself, then those below it. -/
def steps : Node → List WalkStep
  | ⟨kind, children, start, stop, token⟩ =>
    ownSteps ⟨kind, children, start, stop, token⟩ ++ stepsOfAll children

/-- The steps for several nodes, from left to right. -/
def stepsOfAll : List Node → List WalkStep
  | [] => []
  | n :: ns => n.steps ++ stepsOfAll ns

end

mutual

theorem steps_eq : ∀ n : Node, n.steps = n.preorder.flatMap ownSteps
  | ⟨kind, children, start, stop, token⟩ => by
      rw [steps, preorder_eq, List.flatMap_cons, List.flatMap_assoc, stepsOfAll_eq children]

theorem stepsOfAll_eq : ∀ ns : List Node,
    stepsOfAll ns = ns.flatMap fun n => n.preorder.flatMap ownSteps
  | [] => rfl
  | n :: ns => by rw [stepsOfAll, steps_eq n, stepsOfAll_eq ns, List.flatMap_cons]

end

theorem add_mem_nameSteps_iff {m n name : Node} {kind kind' : DeclarationKind} :
    .add kind n name ∈ m.nameSteps kind' ↔ kind = kind' ∧ n = m ∧ name ∈ m.declaredNames := by
  rw [nameSteps, List.mem_flatMap]
  constructor
  · rintro ⟨other, declared, step⟩
    rcases List.mem_pair.mp step with same | same
    · cases same
    · cases same
      exact ⟨rfl, rfl, declared⟩
  · rintro ⟨rfl, rfl, declared⟩
    exact ⟨name, declared, List.mem_pair.mpr (Or.inr rfl)⟩

theorem add_mem_ownSteps_iff {m n name : Node} {kind : DeclarationKind} :
    .add kind n name ∈ m.ownSteps ↔
      n = m ∧ m.kind = kind.word ++ "_declaration" ∧ name ∈ m.declaredNames := by
  have type : DeclarationKind.type.word ++ "_declaration" = "type_declaration" := by decide
  have formula : DeclarationKind.formula.word ++ "_declaration" = "formula_declaration" := by decide
  unfold ownSteps
  split
  next declares =>
      rw [List.mem_cons, or_iff_right nofun, add_mem_nameSteps_iff]
      cases kind with
      | type => simp [declares, type]
      | formula => simp [declares, formula]
  next no_type =>
      split
      next declares =>
          rw [List.mem_cons, or_iff_right nofun, List.mem_cons, or_iff_right nofun,
            add_mem_nameSteps_iff]
          cases kind with
          | type => simp [declares, type]
          | formula => simp [declares, formula]
      next no_formula =>
          cases kind with
          | type => simp [no_type, type]
          | formula => simp [no_formula, formula]

/-- A walk adds the names of the declarations in the tree: the identifiers among their
children that have no colon before them. -/
theorem add_mem_steps_iff {root n name : Node} {kind : DeclarationKind} :
    .add kind n name ∈ root.steps ↔
      n ∈ root.preorder ∧ n.kind = kind.word ++ "_declaration" ∧ name.kind = "identifier" ∧
        ∃ before after, n.children = before ++ name :: after ∧
          ∀ child ∈ before, child.kind ≠ "COLON" := by
  rw [steps_eq, List.mem_flatMap, ← mem_declaredNames]
  constructor
  · rintro ⟨m, below, step⟩
    obtain ⟨rfl, declares, declared⟩ := add_mem_ownSteps_iff.mp step
    exact ⟨below, declares, declared⟩
  · rintro ⟨below, declares, declared⟩
    exact ⟨n, below, add_mem_ownSteps_iff.mpr ⟨rfl, declares, declared⟩⟩

end Node

/-! ## The course of a walk -/

/-- From this index on, the steps end with this index, and with a fault if one of
them fails. -/
inductive Performs (ts : TokenStream) :
    Index → List WalkStep → Index × Option TreeFault → Prop where
  | done (index : Index) : Performs ts index [] (index, none)
  | passes {index : Index} {s : WalkStep} {added : List Addition} {steps : List WalkStep}
      {result : Index × Option TreeFault} :
      s.Passes ts added → Performs ts (index.addAll added) steps result →
        Performs ts index (s :: steps) result
  | fails {index : Index} {s : WalkStep} {fault : TreeFault} {steps : List WalkStep} :
      s.Fails ts fault fault.message → Performs ts index (s :: steps) (index, some fault)

/-- Behind these findings the walk goes on with these steps, from any index. -/
def Follows (ts : TokenStream) (steps : List WalkStep)
    (findings : List (Except TreeFault Addition)) : Prop :=
  ∀ index : Index, Performs ts index steps (index.absorb findings)

section Walk

variable {ts : TokenStream} {steps : List WalkStep} {findings : List (Except TreeFault Addition)}

/-- Each name is looked up and added before the next one. -/
theorem Follows.names {n : Node} {first last : Token} (reaches : n.Reaches ts first last)
    (behind : Follows ts steps findings) (kind : DeclarationKind) (names : List Node) :
    Follows ts ((names.flatMap fun name => [.place name, .add kind n name]) ++ steps)
      ((names.map fun name => name.addition kind ts
        (ts.source.extract first.start.offset last.stop.offset)) ++ findings) := by
  induction names with
  | nil => exact behind
  | cons name names ih =>
      intro index
      rw [List.flatMap_cons, List.map_cons, List.cons_append]
      rcases name.span_cases ts with ⟨f, l, placed, span⟩ | ⟨fault, unplaced, span⟩
      · rw [Node.addition, span]
        exact .passes (.place placed) (.passes (.add reaches placed) (ih _))
      · rw [Node.addition, span]
        exact .fails (.place unplaced)

/-- The text of a declaration is looked up before its names. -/
theorem Follows.source {n : Node} (behind : Follows ts steps findings) (kind : DeclarationKind)
    (names : List Node) :
    Follows ts (.source n :: (names.flatMap fun name => [.place name, .add kind n name]) ++ steps)
      ((match n.sourceText ts with
        | .error fault => [.error fault]
        | .ok declaration => names.map fun name => name.addition kind ts declaration) ++
          findings) := by
  intro index
  rw [Node.sourceText]
  rcases n.span_cases ts with ⟨first, last, reaches, span⟩ | ⟨fault, unplaced, span⟩
  · rw [span]
    simp only [Except.map, TokenStream.slice_eq_extract]
    exact .passes (.source reaches) (behind.names reaches kind names index)
  · rw [span]
    exact .fails (.source unplaced)

/-- What a node yields is what its steps come to. -/
theorem Follows.own (n : Node) (behind : Follows ts steps findings) :
    Follows ts (n.ownSteps ++ steps) (n.findings ts ++ findings) := by
  unfold Node.ownSteps Node.findings
  split
  next type => exact behind.source .type n.declaredNames
  next =>
      split
      next formula =>
          intro index
          unfold Node.formulaFindings Node.nameSteps
          split
          next name one =>
              rw [one]
              refine .passes (.count ?_) (behind.source .formula [name] index)
              rw [one, List.length_singleton]
          next names several =>
              refine .fails (.count ?_)
              intro single
              obtain ⟨name, one⟩ := List.length_eq_one_iff.mp single
              exact several name one
      next => exact behind

/-- What nodes yield, one after the other, is what their steps come to. -/
theorem Follows.nodes (behind : Follows ts steps findings) (ns : List Node) :
    Follows ts (ns.flatMap Node.ownSteps ++ steps)
      (ns.flatMap (fun n => n.findings ts) ++ findings) := by
  induction ns with
  | nil => exact behind
  | cons n ns ih =>
      rw [List.flatMap_cons, List.flatMap_cons, List.append_assoc, List.append_assoc]
      exact ih.own n

end Walk

/-- A walk is the course of its steps. -/
theorem performs_walk (index : Index) (root : Node) (ts : TokenStream) :
    Performs ts index root.steps (index.walk root ts) := by
  have nothing : Follows ts [] [] := fun index => .done index
  have whole := nothing.nodes root.preorder index
  rwa [List.append_nil, List.append_nil, ← Node.steps_eq] at whole

/-- Steps pass up to the first that fails, and the additions of those that pass
are made. -/
theorem Performs.exists_split {ts : TokenStream} {index : Index} {steps : List WalkStep}
    {result : Index × Option TreeFault} (h : Performs ts index steps result) :
    ∃ done rest added, steps = done ++ rest ∧ List.Forall₂ (WalkStep.Passes ts) done added ∧
      result.1 = index.addAll added.flatten ∧
      match rest with
      | [] => result.2 = none
      | s :: _ => ∃ fault, s.Fails ts fault fault.message ∧ result.2 = some fault := by
  induction h with
  | done index => exact ⟨[], [], [], rfl, .nil, rfl, rfl⟩
  | @passes index s added steps result passes _ ih =>
      obtain ⟨done, rest, more, rfl, each, contents, outcome⟩ := ih
      refine ⟨s :: done, rest, added :: more, rfl, .cons passes each, ?_, outcome⟩
      rw [contents, List.flatten_cons, Index.addAll_append]
  | @fails index s fault steps fails =>
      exact ⟨[], s :: steps, [], rfl, .nil, rfl, fault, fails, rfl⟩

/-- Whatever the tree, the tokens and the index to start from: the steps of the
tree are done in their order, up to the first that fails.  The walk ends with the
fault of this step, and the index has the additions of the steps before it. -/
theorem walk_in_order (index : Index) (root : Node) (ts : TokenStream) :
    ∃ done rest added, root.steps = done ++ rest ∧
      List.Forall₂ (WalkStep.Passes ts) done added ∧
      (∀ s ∈ done, ∀ fault message, ¬ s.Fails ts fault message) ∧
      (index.walk root ts).1 = index.addAll added.flatten ∧
      match rest with
      | [] => (index.walk root ts).2 = none
      | s :: _ => ∃ fault, s.Fails ts fault fault.message ∧
          (index.walk root ts).2 = some fault := by
  obtain ⟨done, rest, added, split, each, contents, outcome⟩ :=
    (performs_walk index root ts).exists_split
  refine ⟨done, rest, added, split, each, ?_, contents, outcome⟩
  clear split contents
  induction each with
  | nil => exact nofun
  | cons passes _ ih => exact List.forall_mem_cons.mpr ⟨passes.not_fails, ih⟩

end PvsIndex
