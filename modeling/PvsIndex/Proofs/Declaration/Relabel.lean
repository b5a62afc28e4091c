import PvsIndex.Proofs.Parse.Relabel
import PvsIndex.Proofs.Report

/-!
# Declarations over other tokens

The scan looks at terminals only, so over other tokens with the same terminals
it finds the same declarations with these tokens in them (`declared_map`).  And
an index looks at names only: descriptors that keep their names can be changed
before or after they are added (`Index.relabel_addAll`).  Together they compare
the indexes of two texts whose tokens correspond.

The text of a declaration is cut out of the whole text, and so it has to be
compared by the places where its tokens start and stop (`Declared.text_carry`).
-/

namespace PvsIndex

/-! ## The scan -/

/-- The declared name with other tokens. -/
def Declared.relabel (f : Token → Token) (d : Declared) : Declared :=
  ⟨d.kind, f d.name, d.part.map f⟩

section Scan

variable {f : Token → Token} (hf : ∀ t, (f t).terminal = t.terminal)

include hf

theorem Bracket.level_map (b : Bracket) (ts : List Token) : b.level (ts.map f) = b.level ts := by
  induction ts with
  | nil => rfl
  | cons t ts ih => rw [List.map_cons, level, level, hf, ih]

theorem isOutside_map (ts : List Token) : isOutside (ts.map f) = isOutside ts := by
  simp only [isOutside, Bracket.level_map hf]

theorem runAfter_map (ts : List Token) : runAfter (ts.map f) = (runAfter ts).map f := by
  induction ts using runAfter.induct with
  | case1 c t ts run ih =>
      have run' : (f c).terminal = .mark .comma ∧ (f t).terminal = .ident := by rwa [hf, hf]
      simp only [List.map_cons, runAfter, run, run', and_self, if_true, ih]
  | case2 c t ts stop =>
      have stop' : ¬ ((f c).terminal = .mark .comma ∧ (f t).terminal = .ident) := by rwa [hf, hf]
      simp only [List.map_cons, runAfter, if_neg stop, if_neg stop', List.map_nil]
  | case3 ts short =>
      cases ts with
      | nil => rfl
      | cons c ts =>
          cases ts with
          | nil => rfl
          | cons t ts => exact absurd rfl (short c t ts)

theorem runBefore_map (ts : List Token) : runBefore (ts.map f) = (runBefore ts).map f := by
  induction ts using runBefore.induct with
  | case1 c t ts run ih =>
      have run' : (f c).terminal = .mark .comma ∧ (f t).terminal = .ident := by rwa [hf, hf]
      simp only [List.map_cons, runBefore, run, run', and_self, if_true, ih, List.map_append,
        List.map_nil]
  | case2 c t ts stop =>
      have stop' : ¬ ((f c).terminal = .mark .comma ∧ (f t).terminal = .ident) := by rwa [hf, hf]
      simp only [List.map_cons, runBefore, if_neg stop, if_neg stop', List.map_nil]
  | case3 ts short =>
      cases ts with
      | nil => rfl
      | cons c ts =>
          cases ts with
          | nil => rfl
          | cons t ts => exact absurd rfl (short c t ts)

theorem afterRun_map (ts : List Token) : afterRun (ts.map f) = (afterRun ts).map f := by
  rw [afterRun, afterRun, runAfter_map hf, List.length_map, List.map_drop]

theorem announced?_map (ts : List Token) : announced? (ts.map f) = announced? ts := by
  match ts with
  | [] => rfl
  | [_] => rfl
  | c :: k :: ts => rw [List.map_cons, List.map_cons, announced?, announced?, hf, hf]

theorem kindAt?_map (earlier : List Token) (t : Token) (after : List Token) :
    kindAt? (earlier.map f) (f t) (after.map f) = kindAt? earlier t after := by
  have run : (runAfter (after.map f)).reverse ++ f t :: earlier.map f =
      ((runAfter after).reverse ++ t :: earlier).map f := by
    rw [runAfter_map hf, List.map_append, List.map_cons, List.map_reverse]
  unfold kindAt?
  rw [hf, afterRun_map hf, announced?_map hf, run, isOutside_map hf, runAfter_map hf]
  simp only [List.map_eq_nil_iff]

theorem partAfter_map (m : Progress) (ts : List Token) :
    partAfter m (ts.map f) = (partAfter m ts).map f := by
  induction ts generalizing m with
  | nil => rfl
  | cons t ts ih =>
      rw [List.map_cons, partAfter, partAfter, hf, ih]
      split
      · rfl
      · rfl

theorem declaredAt?_map (earlier : List Token) (t : Token) (after : List Token) :
    declaredAt? (earlier.map f) (f t) (after.map f) =
      (declaredAt? earlier t after).map (Declared.relabel f) := by
  rw [declaredAt?, declaredAt?, kindAt?_map hf, runBefore_map hf, partAfter_map hf, Option.map_map]
  simp only [Function.comp_def, Declared.relabel, List.map_append, List.map_cons]

/-- The same names are declared, whatever the tokens. -/
theorem declared_map (earlier ts : List Token) :
    declared (earlier.map f) (ts.map f) = (declared earlier ts).map (Declared.relabel f) := by
  induction ts generalizing earlier with
  | nil => rfl
  | cons t ts ih =>
      have rest := ih (t :: earlier)
      rw [List.map_cons] at rest
      rw [List.map_cons, declared, declared, declaredAt?_map hf, rest, List.map_append,
        Option.toList_map]

end Scan

/-- The same names are declared at other places. -/
theorem declared_carry (move : Place → Place) (ts : List Token) :
    declared [] (ts.map (Token.carry move)) =
      (declared [] ts).map (Declared.relabel (Token.carry move)) := by
  refine declared_map ?_ [] ts
  intro t
  rfl

/-! ## The index -/

/-- The addition with another descriptor. -/
def Addition.relabel (g : Descriptor → Descriptor) (a : Addition) : Addition :=
  { a with descriptor := g a.descriptor }

namespace Index

/-- The index with other descriptors. -/
def relabel (g : Descriptor → Descriptor) (index : Index) : Index :=
  ⟨index.types.map g, index.formulas.map g, index.shadowed.map fun (kind, d) => (kind, g d)⟩

section Names

variable {g : Descriptor → Descriptor} (hg : ∀ d, (g d).identifier = d.identifier)

include hg

theorem get?_map (t : Table) (identifier : List Char) :
    Table.get? (t.map g) identifier = (t.get? identifier).map g := by
  simp only [Table.get?, List.find?_map, Function.comp_def, hg]

theorem put_map (t : Table) (d : Descriptor) :
    Table.put (t.map g) (g d) = (t.put d).map g := by
  induction t with
  | nil => rfl
  | cons e es ih =>
      rw [List.map_cons, Table.put, Table.put, hg, hg, ih]
      split
      · rfl
      · rfl

/-- Descriptors that keep their names can be changed before they are added, or
afterwards. -/
theorem relabel_add (index : Index) (kind : DeclarationKind) (d : Descriptor) :
    (index.add kind d).relabel g = (index.relabel g).add kind (g d) := by
  have displaced : ∀ t : Table, List.map (fun old => (kind, old))
        (Table.get? (t.map g) (g d).identifier).toList =
      ((t.get? d.identifier).toList.map fun old => (kind, old)).map fun (kind, d) => (kind, g d) := by
    intro t
    rw [get?_map hg, hg]
    cases t.get? d.identifier <;> rfl
  cases kind with
  | type =>
      simp only [add, relabel, table, put_map hg, displaced, List.map_append]
  | formula =>
      simp only [add, relabel, table, put_map hg, displaced, List.map_append]

theorem relabel_addAll (index : Index) (as : List Addition) :
    (index.addAll as).relabel g = (index.relabel g).addAll (as.map (Addition.relabel g)) := by
  induction as generalizing index with
  | nil => rfl
  | cons a as ih =>
      have rest := ih (index.add a.kind a.descriptor)
      rw [relabel_add hg] at rest
      exact rest

/-- Declared names over other tokens, in another text, make the index with other
descriptors. -/
theorem ofDeclared_relabel {f : Token → Token} {source source' : List Char} {ds : List Declared}
    (same : ∀ d ∈ ds, (d.relabel f).descriptor source' = g (d.descriptor source)) :
    ofDeclared source' (ds.map (Declared.relabel f)) = (ofDeclared source ds).relabel g := by
  have additions : (ds.map (Declared.relabel f)).map (Declared.addition source') =
      (ds.map (Declared.addition source)).map (Addition.relabel g) := by
    rw [List.map_map, List.map_map]
    refine List.map_congr_left fun d hd => ?_
    exact congrArg (Addition.mk d.kind) (same d hd)
  rw [ofDeclared_eq, ofDeclared_eq, relabel_addAll hg, additions]
  rfl

end Names

end Index

/-! ## Texts of declarations -/

/-- Between two places of a text is what the one front has more than the other. -/
theorem TokenStream.slice_of_fronts {source b : List Char} (ts : List Token) (a : List Char)
    (hb : b <+: source) :
    slice ⟨source, ts⟩ ⟨Place.start.afterAll a, Place.start.afterAll b⟩ = b.drop a.length := by
  have start : (Place.start.afterAll a).offset = a.length := by
    rw [Place.offset_afterAll]
    exact Nat.zero_add _
  have stop : (Place.start.afterAll b).offset = b.length := by
    rw [Place.offset_afterAll]
    exact Nat.zero_add _
  rw [slice, start, stop, ← List.drop_take, ← List.prefix_iff_eq_take.mp hb]

/-- The tokens of a text are carried to another one, and the stretches between
them appear there in another view.  Then so does the text of a declaration. -/
theorem Declared.text_carry {source source' : List Char} {ts : List Token} {d : Declared}
    (move : Place → Place) (view : List Char → List Char) (tokens : tokenize source = .ok ts)
    (inside : d.part ⊆ ts) (nothing : view [] = [])
    (stop : ∀ t ∈ ts, (t.carry move).stop = move t.stop)
    (between : ∀ a b, a <+: source → b <+: source →
      TokenStream.slice ⟨source', []⟩ ⟨move (.afterAll .start a), move (.afterAll .start b)⟩ =
        view (b.drop a.length)) :
    (d.relabel (Token.carry move)).text source' = view (d.text source) := by
  unfold text relabel
  rw [List.head?_map, List.getLast?_map]
  cases first : d.part.head? with
  | none => exact nothing.symm
  | some t =>
      cases last : d.part.getLast? with
      | none => exact nothing.symm
      | some u =>
          have ht := inside (List.mem_of_head? first)
          have hu := inside (List.mem_of_getLast? last)
          obtain ⟨a, ha, start⟩ := (tokenize_isIn tokens t ht).1
          obtain ⟨b, hb, stopped⟩ := (tokenize_isIn tokens u hu).2
          simp only [Option.map_some]
          rw [stop u hu, stopped, start, TokenStream.slice_of_fronts [] a hb, Token.carry, start]
          exact between a b ha hb

/-! ## Reports -/

/-- Two texts have both a tree or both none.  If their indexes are related whenever
they have trees, so are those of their reports. -/
theorem Report.rel_index?_of_outline? {source source' : List Char} {R : Index → Index → Prop}
    (outline : (parse source').outline? = (parse source).outline?)
    (related : ∀ root stream root' stream', parse source = .tree root stream →
      parse source' = .tree root' stream' →
      R (.ofDeclared source (declared [] stream.tokens))
        (.ofDeclared source' (declared [] stream'.tokens)))
    (reportDuplicates : Bool) :
    ∃ report report', ofSource reportDuplicates source = .ok report ∧
      ofSource reportDuplicates source' = .ok report' ∧
      Option.Rel R report.index? report'.index? := by
  cases outcome : parse source with
  | rejected diagnostics =>
      cases outcome' : parse source' with
      | rejected diagnostics' =>
          refine ⟨.rejected diagnostics, .rejected diagnostics', ?_, ?_, .none⟩
          · rw [ofSource, outcome, ofParsed]
          · rw [ofSource, outcome', ofParsed]
      | tree root' stream' =>
          rw [outcome, outcome'] at outline
          cases outline
  | tree root stream =>
      cases outcome' : parse source' with
      | rejected diagnostics' =>
          rw [outcome, outcome'] at outline
          cases outline
      | tree root' stream' =>
          obtain ⟨_, report⟩ := ofSource_parsed outcome reportDuplicates
          obtain ⟨_, report'⟩ := ofSource_parsed outcome' reportDuplicates
          exact ⟨_, _, report, report', .some (related _ _ _ _ outcome outcome')⟩

/-- If the indexes of two texts look alike whenever they have trees, their reports
look alike. -/
theorem Report.index?_of_outline? {source source' : List Char} {α : Type} (view view' : Index → α)
    (outline : (parse source').outline? = (parse source).outline?)
    (alike : ∀ ts us, tokenize source = .ok ts → tokenize source' = .ok us →
      (∀ d ∈ declared [] ts, d.part ⊆ ts) →
      view' (.ofDeclared source' (declared [] us)) = view (.ofDeclared source (declared [] ts)))
    (reportDuplicates : Bool) :
    ∃ report report', ofSource reportDuplicates source = .ok report ∧
      ofSource reportDuplicates source' = .ok report' ∧
      report'.index?.map view' = report.index?.map view := by
  obtain ⟨report, report', made, made', related⟩ := rel_index?_of_outline?
    (R := fun index index' => view' index' = view index) outline
    (fun root stream root' stream' parsed parsed' => by
      obtain ⟨_, tokens, _⟩ := parse_eq_tree_iff.mp parsed
      obtain ⟨_, tokens', _⟩ := parse_eq_tree_iff.mp parsed'
      exact alike _ _ tokens tokens' fun d hd => ((walk_parsed parsed).2 d hd).subset)
    reportDuplicates
  refine ⟨report, report', made, made', ?_⟩
  generalize report.index? = index, report'.index? = index' at related ⊢
  cases related with
  | none => rfl
  | some same => exact congrArg some same

end PvsIndex
