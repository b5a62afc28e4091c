import PvsIndex.Proofs.Declaration.History
import PvsIndex.Proofs.Declaration.Pointing
import PvsIndex.Proofs.Report
import PvsIndex.Proofs.Tree.Relabel

/-!
# Duplicate declarations

A report warns of every declaration that a later one displaced, if it was asked
to, and of nothing else.  Asking does not change anything else in it.

Two things are needed.  One is about additions: an index displaces as many as were
made beyond the first of each kind and name (`Index.length_shadowed_addAll`), and
what it displaces was added before what is left in its place
(`Index.latest?_of_displaced`).  The other is about the text: the names of a text
stand at growing positions, so a position tells which occurrence is meant, and
"added before" is "further up" (`declared_sorted`).
-/

namespace PvsIndex

/-! ## What is displaced -/

/-- One more at the end counts if it is new. -/
theorem length_eraseDups_concat {α : Type} [BEq α] [LawfulBEq α] (xs : List α) (x : α) :
    (xs ++ [x]).eraseDups.length = xs.eraseDups.length + if x ∈ xs then 0 else 1 := by
  rw [List.eraseDups_append, List.length_append]
  by_cases known : x ∈ xs
  · have old : [x].removeAll xs = [] := by simpa [List.removeAll] using known
    rw [old, List.eraseDups_nil, List.length_nil, if_pos known]
  · have new : [x].removeAll xs = [x] := by simpa [List.removeAll] using known
    rw [new, List.eraseDups_cons, List.filter_nil, List.eraseDups_nil, List.length_singleton,
      if_neg known]

namespace Index

theorem latest?_eq_none_iff {as : List Addition} {key : DeclarationKind × List Char} :
    latest? as key = none ↔ key ∉ as.map Addition.key := by
  rw [latest?, Option.map_eq_none_iff, List.getLast?_eq_none_iff, List.filter_eq_nil_iff]
  simp

theorem exists_of_latest? {as : List Addition} {key : DeclarationKind × List Char} {d : Descriptor}
    (h : latest? as key = some d) : ∃ b ∈ as, b.key = key ∧ b.descriptor = d := by
  obtain ⟨b, last, rfl⟩ := Option.map_eq_some_iff.mp h
  obtain ⟨hb, same⟩ := List.mem_filter.mp (List.mem_of_getLast? last)
  exact ⟨b, hb, of_decide_eq_true same, rfl⟩

theorem latest?_append (before later : List Addition) (key : DeclarationKind × List Char) :
    latest? (before ++ later) key = (latest? later key).or (latest? before key) := by
  rw [latest?, List.filter_append, List.getLast?_append, Option.map_or, latest?, latest?]

theorem length_latest? (as : List Addition) (key : DeclarationKind × List Char) :
    (latest? as key).toList.length = if key ∈ as.map Addition.key then 1 else 0 := by
  cases latest : latest? as key with
  | none => rw [if_neg (latest?_eq_none_iff.mp latest), Option.toList_none, List.length_nil]
  | some d =>
      have known : key ∈ as.map Addition.key := by
        by_contra new
        rw [latest?_eq_none_iff.mpr new] at latest
        cases latest
      rw [if_pos known, Option.toList_some, List.length_singleton]

/-- With those that displace nothing, one for each kind and name, all additions are
counted. -/
theorem length_shadowed_addAll (as : List Addition) :
    (empty.addAll as).shadowed.length + (as.map Addition.key).eraseDups.length = as.length := by
  induction as using List.reverseRecOn with
  | nil => rfl
  | append_singleton as a ih =>
      have displaced : ((empty.addAll (as ++ [a])).shadowed).length =
          (empty.addAll as).shadowed.length + if a.key ∈ as.map Addition.key then 1 else 0 := by
        rw [addAll_concat, shadowed_add, get?_addAll, ← Addition.key, List.length_append,
          List.length_map, length_latest?]
      rw [displaced, List.map_append, List.map_singleton, length_eraseDups_concat,
        List.length_append, List.length_singleton]
      split
      · omega
      · omega

/-- What is displaced was added before what is left in its place. -/
theorem latest?_of_displaced {as : List Addition} {kind : DeclarationKind} {d : Descriptor}
    (h : (kind, d) ∈ (empty.addAll as).shadowed) :
    ∃ before later, as = before ++ later ∧ (∃ b ∈ before, b.descriptor = d) ∧
      ∃ c ∈ later, latest? as (kind, d.identifier) = some c.descriptor := by
  rw [shadowed_addAll] at h
  obtain ⟨i, hi, displaced⟩ := List.mem_filterMap.mp h
  obtain ⟨a, at_i, displaced⟩ := Option.bind_eq_some_iff.mp displaced
  obtain ⟨d, latest, same⟩ := Option.map_eq_some_iff.mp displaced
  obtain ⟨rfl, rfl⟩ := Prod.mk.inj same
  obtain ⟨b, hb, key, rfl⟩ := exists_of_latest? latest
  obtain ⟨lt, at_i⟩ := List.getElem?_eq_some_iff.mp at_i
  have filed : (a.kind, b.descriptor.identifier) = a.key := by
    rw [Addition.key, Addition.key, Prod.mk.injEq] at key
    rw [Addition.key, key.2]
  -- the addition that displaces is filed under the key, so the last one is not before it
  have after : a.key ∈ (as.drop i).map Addition.key := by
    refine List.mem_map_of_mem ?_
    rw [List.drop_eq_getElem_cons lt, at_i]
    exact List.mem_cons_self
  obtain ⟨e, last⟩ : ∃ e, latest? (as.drop i) a.key = some e := by
    rw [← Option.ne_none_iff_exists']
    exact fun absent => latest?_eq_none_iff.mp absent after
  obtain ⟨c, hc, _, rfl⟩ := exists_of_latest? last
  refine ⟨as.take i, as.drop i, (List.take_append_drop i as).symm, ⟨b, hb, rfl⟩, c, hc, ?_⟩
  rw [filed, ← List.take_append_drop i as, latest?_append, last, Option.some_or]

end Index

/-- Where the name of a descriptor stands. -/
def Descriptor.position (d : Descriptor) : Position :=
  ⟨d.line, d.character⟩

namespace Index

section Sorted

variable {as : List Addition}
  (sorted : as.Pairwise fun a b => a.descriptor.position.Before b.descriptor.position)

include sorted

/-- What was displaced stands in different places, and nothing that is left stands in
one of them. -/
theorem shadowed_apart :
    ((empty.addAll as).shadowed.map fun x => x.2.position).Nodup ∧
      ∀ kind, ∀ e ∈ (empty.addAll as).table kind,
        ∀ x ∈ (empty.addAll as).shadowed, x.2.position ≠ e.position := by
  have positions : ((empty.addAll as).kept.map fun x => x.2.position).Nodup := by
    have kept := kept_addAll empty as
    have nothing : empty.kept = [] := rfl
    rw [nothing, List.append_nil] at kept
    rw [(kept.map _).nodup_iff, List.map_map, List.Nodup, List.pairwise_map]
    exact sorted.imp fun before => before.ne
  rw [kept, List.map_append, List.nodup_append] at positions
  obtain ⟨_, shadowed, apart⟩ := positions
  refine ⟨shadowed, fun kind e he x hx => ?_⟩
  refine (apart _ (List.mem_map.mpr ⟨(kind, e), ?_, rfl⟩) _ (List.mem_map_of_mem hx)).symm
  cases kind with
  | type => exact List.mem_append_left _ (List.mem_map_of_mem he)
  | formula => exact List.mem_append_right _ (List.mem_map_of_mem he)

/-- What is displaced stands before what is left in its place, and that stands
where nothing was displaced. -/
theorem survivor_of_displaced {kind : DeclarationKind} {d : Descriptor}
    (h : (kind, d) ∈ (empty.addAll as).shadowed) :
    ∃ e, ((empty.addAll as).table kind).get? d.identifier = some e ∧
      d.position.Before e.position ∧
      ∀ x ∈ (empty.addAll as).shadowed, x.2.position ≠ e.position := by
  obtain ⟨before, later, rfl, ⟨b, hb, rfl⟩, c, hc, latest⟩ := latest?_of_displaced h
  have found : ((empty.addAll (before ++ later)).table kind).get? b.descriptor.identifier =
      some c.descriptor := by
    rw [get?_addAll, latest]
  refine ⟨c.descriptor, found, (List.pairwise_append.mp sorted).2.2 b hb c hc, ?_⟩
  exact (shadowed_apart sorted).2 kind _ (List.mem_of_find?_eq_some found)

end Sorted

end Index

/-! ## The names of a text -/

/-- The names of a row of tokens stand in it in their order. -/
theorem declared_names_sublist (earlier ts : List Token) :
    ((declared earlier ts).map Declared.name).Sublist ts := by
  induction ts generalizing earlier with
  | nil => exact .slnil
  | cons t ts ih =>
      rw [declared, List.map_append]
      cases here : declaredAt? earlier t ts with
      | none => exact (ih _).cons t
      | some d =>
          obtain ⟨kind, _, rfl⟩ := Option.map_eq_some_iff.mp here
          exact (ih _).cons_cons t

/-- The declared names of a text stand at growing positions. -/
theorem declared_sorted {source : List Char} {ts : List Token} (tokens : tokenize source = .ok ts) :
    (declared [] ts).Pairwise fun x y => x.name.start.position.Before y.name.start.position := by
  have names := (tokenize_sorted tokens).sublist (declared_names_sublist [] ts)
  rw [List.pairwise_map] at names
  exact names.imp Place.Before.position

/-- A name declared with a kind. -/
def Declared.key (x : Declared) : DeclarationKind × List Char :=
  (x.kind, x.name.text)

/-! ## What a warning says -/

/-- The range is on one line of the text, and has these characters of it. -/
def Diagnostic.Covers (d : Diagnostic) (source text : List Char) : Prop :=
  ∃ (number margin : Nat) (row : List Char), (source.splitOn '\n')[number]? = some row ∧
    d.range = ⟨⟨number + 1, margin⟩, ⟨number + 1, margin + text.length⟩⟩ ∧
    row.extract margin (margin + text.length) = text

/-- The warning is about this occurrence of a declared name. -/
structure Diagnostic.WarnsOf (w : Diagnostic) (source : List Char) (x : Declared) : Prop where
  message : w.message =
    "duplicate " ++ x.kind.word ++ " declaration '" ++ String.ofList x.name.text ++ "'"
  severity : w.severity = .warning
  range : w.range = ⟨x.name.start.position, x.name.stop.position⟩
  covers : w.Covers source x.name.text

/-- A name is on one line. -/
theorem Token.position_stop {t : Token} (written : Shape.name.Matches t.text) :
    t.stop.position = ⟨t.start.line, t.start.column - 1 + t.text.length⟩ := by
  have one_line : '\n' ∉ t.text := by
    intro inside
    exact absurd (written.isNameChar_of_mem _ inside) (by decide)
  have line : t.stop.line = t.start.line := by
    rw [stop, Place.line_afterAll, List.count_eq_zero.mpr one_line]
    rfl
  have column : t.stop.column = t.start.column + t.text.length :=
    Place.column_afterAll_of_line one_line t.start
  rw [Place.position, line, column, Position.mk.injEq]
  omega

theorem Declared.warnsOf {source : List Char} {root : Node} {ts : TokenStream}
    (parsed : parse source = .tree root ts) {x : Declared} (hx : x ∈ declared [] ts.tokens) :
    (duplicateWarning x.kind (x.descriptor source)).WarnsOf source x := by
  obtain ⟨ident, pre, front, back, post, stretch⟩ := exists_stretch_of_parsed parsed hx
  obtain ⟨number, margin, points, _⟩ := stretch.pointsAt ident
  obtain ⟨row, found, here, _⟩ := points.name
  refine ⟨rfl, rfl, ?_, number, margin, row, found, ?_, ?_⟩
  · rw [Token.position_stop points.written]
    rfl
  · show Range.mk ⟨_, _⟩ ⟨_, _⟩ = _
    rw [points.line, points.character]
    rfl
  · rw [List.extract_eq_take_drop, Nat.add_sub_cancel_left]
    exact (List.prefix_iff_eq_take.mp here).symm

/-! ## Exact reports -/

/-- These warnings are about what the index of a text displaced, one about each.
Together with the names without repetitions they are as many as all names.  What is
left in the place of a displaced declaration comes later, and is not warned of. -/
structure Index.Warns (index : Index) (source : List Char) (ts : List Token)
    (warnings : List Diagnostic) : Prop where
  count : warnings.length + ((declared [] ts).map Declared.key).eraseDups.length =
    (declared [] ts).length
  each : List.Forall₂
    (fun entry w => ∃ x ∈ declared [] ts, (x.kind, x.descriptor source) = entry ∧
      Diagnostic.WarnsOf w source x) index.shadowed warnings
  once : (warnings.map fun w => w.range.start).Nodup
  survivor : ∀ kind d, (kind, d) ∈ index.shadowed →
    ∃ e, (index.table kind).get? d.identifier = some e ∧ d.position.Before e.position ∧
      ∀ w ∈ warnings, w.range.start ≠ e.position

theorem Index.warns_of_parsed {source : List Char} {root : Node} {ts : TokenStream}
    (parsed : parse source = .tree root ts) :
    (ofDeclared source (declared [] ts.tokens)).Warns source ts.tokens
      (ofDeclared source (declared [] ts.tokens)).duplicateWarnings := by
  obtain ⟨_, tokens, _⟩ := parse_eq_tree_iff.mp parsed
  have sorted : ((declared [] ts.tokens).map (Declared.addition source)).Pairwise
      fun a b => a.descriptor.position.Before b.descriptor.position :=
    List.pairwise_map.mpr (declared_sorted tokens)
  have starts : ∀ index : Index, index.duplicateWarnings.map (fun w => w.range.start) =
      index.shadowed.map fun x => x.2.position := by
    intro index
    rw [duplicateWarnings, List.map_map]
    rfl
  constructor
  · have all := length_shadowed_addAll ((declared [] ts.tokens).map (Declared.addition source))
    rw [List.map_map, List.length_map, ← ofDeclared_eq] at all
    rw [duplicateWarnings, List.length_map]
    exact all
  · rw [duplicateWarnings, List.forall₂_map_right_iff, List.forall₂_same]
    rintro ⟨kind, d⟩ displaced
    obtain ⟨x, hx, rfl, rfl⟩ := lists_ofDeclared.mp (Or.inr displaced)
    exact ⟨x, hx, rfl, Declared.warnsOf parsed hx⟩
  · rw [starts, ofDeclared_eq]
    exact (shadowed_apart sorted).1
  · rw [ofDeclared_eq]
    intro kind d displaced
    obtain ⟨e, found, before, apart⟩ := survivor_of_displaced sorted displaced
    refine ⟨e, found, before, fun w hw => ?_⟩
    obtain ⟨x, hx, rfl⟩ := List.mem_map.mp hw
    exact apart x hx

/-- Asking for warnings changes nothing but the warnings.  There are none without
asking and none beside errors; otherwise they are exact. -/
theorem duplicates_exact (source : List Char) :
    ∃ plain full, Report.ofSource false source = .ok plain ∧ Report.ofSource true source = .ok full ∧
      plain.diagnostics = full.diagnostics ∧ plain.index? = full.index? ∧ plain.duplicates = [] ∧
      (full.diagnostics ≠ [] → full.duplicates = []) ∧
      (full.diagnostics = [] → ∃ index ts, full.index? = some index ∧ tokenize source = .ok ts ∧
        index.Warns source ts full.duplicates) := by
  cases outcome : parse source with
  | rejected diagnostics =>
      have nonempty : (parse source).diagnostics ≠ [] := by
        rw [Ne, diagnostics_eq_nil_iff_outline?, outcome]
        exact Bool.false_ne_true
      rw [outcome] at nonempty
      have report : ∀ asked, Report.ofSource asked source = .ok (.rejected diagnostics) := by
        intro asked
        rw [Report.ofSource, outcome, Report.ofParsed]
      exact ⟨_, _, report false, report true, rfl, rfl, rfl, fun _ => rfl,
        fun clean => absurd clean nonempty⟩
  | tree root ts =>
      obtain ⟨_, tokens, _⟩ := parse_eq_tree_iff.mp outcome
      have report : ∀ asked, Report.ofSource asked source =
          .ok (.indexed (Index.ofDeclared source (declared [] ts.tokens))
            (if asked then (Index.ofDeclared source (declared [] ts.tokens)).duplicateWarnings
              else [])) := by
        intro asked
        rw [Report.ofSource, outcome, Report.ofParsed, (walk_parsed outcome).1]
      refine ⟨_, _, report false, report true, rfl, rfl, rfl, fun faulty => absurd rfl faulty, ?_⟩
      exact fun _ => ⟨_, _, rfl, tokens, Index.warns_of_parsed outcome⟩

end PvsIndex
