import Mathlib.Data.List.Pairwise
import PvsIndex.Proofs.Declaration.Pointing
import PvsIndex.Proofs.Declaration.Relabel
import PvsIndex.Proofs.Token.Coverage
import PvsIndex.Proofs.Token.LetterCase

/-!
# Keywords in another case

Keywords may be written in upper case or in lower case, letter by letter, and it
makes no difference but in the texts that have them.  The text with its keywords
in another case has the same tokens in the same places, and those that are not
keywords are the very same (`tokenize_recut`).  So it has the same outline, and
its index lists the same names at the same positions.  Only the texts of
declarations are others, since keywords stand in them, and each is cut out of its
text in the same place.
-/

namespace PvsIndex

/-! ## Keywords in a text -/

/-- Is the token a keyword? -/
def Token.isKeyword (t : Token) : Bool :=
  match t.terminal with
  | .keyword _ => true
  | _ => false

/-- The other text has some letters of keywords in another case, and is the same
besides. -/
structure RecasesKeywords (ts : List Token) (source source' : List Char) : Prop where
  length : source'.length = source.length
  letters : ∀ (i : Nat) (h : i < source.length) (h' : i < source'.length),
    source'[i] = source[i] ∨ Recases source[i] source'[i] ∧
      ∃ t ∈ ts, t.isKeyword = true ∧ t.start.offset ≤ i ∧ i < t.stop.offset

namespace RecasesKeywords

variable {ts : List Token} {source source' : List Char}

theorem recasesAll (h : RecasesKeywords ts source source') : RecasesAll source source' := by
  rw [RecasesAll, List.forall₂_iff_get]
  refine ⟨h.length.symm, fun i hi hi' => ?_⟩
  rcases h.letters i hi hi' with same | ⟨recased, _⟩
  · exact Or.inl same
  · exact recased

/-- What no keyword reaches into is the same. -/
theorem extract_eq (h : RecasesKeywords ts source source') {i j : Nat}
    (free : ∀ t ∈ ts, t.isKeyword = true → t.stop.offset ≤ i ∨ j ≤ t.start.offset) :
    source'.extract i j = source.extract i j := by
  have length : (source'.extract i j).length = (source.extract i j).length := by
    simp only [List.extract_eq_take_drop, List.length_take, List.length_drop, h.length]
  refine List.ext_getElem length fun n hn hn' => ?_
  simp only [List.extract_eq_take_drop, List.getElem_take, List.getElem_drop]
  simp only [List.extract_eq_take_drop, List.length_take, List.length_drop] at hn hn'
  rcases h.letters (i + n) (by omega) (by omega) with same | ⟨_, t, ht, keyword, start, stop⟩
  · exact same
  · rcases free t ht keyword with before | behind
    · omega
    · omega

end RecasesKeywords

/-! ## Tokens -/

/-- The token with the text that stands there in another text. -/
def Token.recut (source' : List Char) (t : Token) : Token :=
  { t with text := source'.extract t.start.offset t.stop.offset }

theorem map_recut_eq (source' : List Char) {ts ts' : List Token}
    (h : List.Forall₂ Token.Recases ts ts') :
    ts'.map (Token.recut source') = ts.map (Token.recut source') := by
  induction h with
  | nil => rfl
  | cons same _ ih =>
      rw [List.map_cons, List.map_cons, ih, Token.recut, Token.recut, same.start, same.terminal,
        same.stop]

/-- Tokens do not overlap. -/
theorem Covers.apart_of_ne {source : List Char} {stop : Nat} {ts : List Token}
    (h : Covers source stop ts) {t u : Token} (ht : t ∈ ts) (hu : u ∈ ts) (ne : t ≠ u) :
    t.stop.offset ≤ u.start.offset ∨ u.stop.offset ≤ t.start.offset := by
  have either : ts.Pairwise fun t u =>
      t.stop.offset ≤ u.start.offset ∨ u.stop.offset ≤ t.start.offset := h.apart.imp Or.inl
  have symm : Std.Symm fun t u : Token =>
      t.stop.offset ≤ u.start.offset ∨ u.stop.offset ≤ t.start.offset := ⟨fun _ _ => Or.symm⟩
  exact either.forall ht hu ne

section Recut

variable {ts : List Token} {source source' : List Char} (h : RecasesKeywords ts source source')
  (tokens : tokenize source = .ok ts)

include h tokens

/-- The tokens of the other text stand where those of the text do, and are the same
unless they are keywords. -/
theorem tokenize_recut :
    tokenize source' = .ok (ts.map (Token.recut source')) ∧
      ∀ t ∈ ts, t.Recases (t.recut source') ∧ (t.isKeyword = false → t.recut source' = t) := by
  obtain ⟨ts', tokens', recased⟩ := tokenize_recased h.recasesAll tokens
  have covers := covers_of_tokenize tokens []
  have covers' := covers_of_tokenize tokens' []
  rw [List.append_nil] at covers covers'
  have cut : ts'.map (Token.recut source') = ts' := by
    conv_rhs => rw [← List.map_id ts']
    refine List.map_congr_left fun t ht => ?_
    rw [Token.recut, ← covers'.text t ht]
    rfl
  rw [map_recut_eq source' recased] at cut
  rw [← cut, List.forall₂_map_right_iff, List.forall₂_same] at recased
  refine ⟨cut ▸ tokens', fun t ht => ⟨recased t ht, fun other => ?_⟩⟩
  have text : source'.extract t.start.offset t.stop.offset = t.text := by
    rw [covers.text t ht]
    refine h.extract_eq fun u hu keyword => ?_
    refine covers.apart_of_ne hu ht ?_
    rintro rfl
    rw [keyword] at other
    cases other
  rw [Token.recut, text]

end Recut

/-! ## Indexes that look alike -/

section Alike

variable {R : Descriptor → Descriptor → Prop}

/-- Corresponding descriptors of the two indexes look alike. -/
structure Index.Alike (R : Descriptor → Descriptor → Prop) (index index' : Index) : Prop where
  types : List.Forall₂ R index.types index'.types
  formulas : List.Forall₂ R index.formulas index'.formulas
  shadowed : List.Forall₂ (fun e e' => e'.1 = e.1 ∧ R e.2 e'.2) index.shadowed index'.shadowed

variable (names : ∀ {d d' : Descriptor}, R d d' → d'.identifier = d.identifier)

include names

theorem Table.get?_alike {t t' : Table} (h : List.Forall₂ R t t') (identifier : List Char) :
    List.Forall₂ R (t.get? identifier).toList (t'.get? identifier).toList := by
  unfold get?
  induction h with
  | nil => exact .nil
  | @cons d d' t t' same _ ih =>
      rw [List.find?_cons, List.find?_cons, names same]
      cases decide (d.identifier = identifier) with
      | true => exact .cons same .nil
      | false => exact ih

theorem Table.put_alike {t t' : Table} (h : List.Forall₂ R t t') {d d' : Descriptor} (hd : R d d') :
    List.Forall₂ R (t.put d) (t'.put d') := by
  induction h with
  | nil => exact .cons hd .nil
  | @cons e e' t t' same rest ih =>
      rw [put, put, names same, names hd]
      split
      · exact .cons hd rest
      · exact .cons same ih

theorem Index.Alike.add {index index' : Index} (h : index.Alike R index') (kind : DeclarationKind)
    {d d' : Descriptor} (hd : R d d') : (index.add kind d).Alike R (index'.add kind d') := by
  have displaced : ∀ {t t' : Table}, List.Forall₂ R t t' →
      List.Forall₂ (fun (e e' : DeclarationKind × Descriptor) => e'.1 = e.1 ∧ R e.2 e'.2)
        ((t.get? d.identifier).toList.map (kind, ·)) ((t'.get? d'.identifier).toList.map (kind, ·)) := by
    intro t t' tables
    rw [List.forall₂_map_left_iff, List.forall₂_map_right_iff, names hd]
    exact (Table.get?_alike names tables d.identifier).imp fun _ _ same => ⟨rfl, same⟩
  cases kind with
  | type =>
      exact ⟨Table.put_alike names h.types hd, h.formulas,
        List.rel_append h.shadowed (displaced h.types)⟩
  | formula =>
      exact ⟨h.types, Table.put_alike names h.formulas hd,
        List.rel_append h.shadowed (displaced h.formulas)⟩

/-- Declared names with descriptors that look alike make indexes that look alike. -/
theorem Index.ofDeclared_alike {f : Token → Token} {source source' : List Char} {ds : List Declared}
    (same : ∀ d ∈ ds, R (d.descriptor source) ((d.relabel f).descriptor source')) :
    (ofDeclared source ds).Alike R (ofDeclared source' (ds.map (Declared.relabel f))) := by
  induction ds using List.reverseRecOn with
  | nil => exact ⟨.nil, .nil, .nil⟩
  | append_singleton ds d ih =>
      rw [List.map_append, ofDeclared, ofDeclared, List.foldl_append, List.foldl_append]
      have before := ih fun x hx => same x (List.mem_append_left _ hx)
      exact before.add names d.kind (same d (List.mem_append_right _ List.mem_cons_self))

end Alike

/-! ## Reports -/

/-- The same name at the same position.  The declaration is cut out of the other
text where it is cut out of the text. -/
structure Descriptor.Recases (source source' : List Char) (d d' : Descriptor) : Prop where
  identifier : d'.identifier = d.identifier
  line : d'.line = d.line
  character : d'.character = d.character
  declaration : ∃ i j, d.declaration = source.extract i j ∧ d'.declaration = source'.extract i j

section Reports

variable {ts : List Token} {source source' : List Char} (h : RecasesKeywords ts source source')
  (tokens : tokenize source = .ok ts)

include h tokens

theorem Declared.recases {x : Declared} (inside : x.part ⊆ ts) (name : x.name ∈ ts)
    (ident : x.name.terminal = .ident) :
    (x.descriptor source).Recases source source'
      ((x.relabel (Token.recut source')).descriptor source') := by
  obtain ⟨_, recut⟩ := tokenize_recut h tokens
  have plain : x.name.isKeyword = false := by rw [Token.isKeyword, ident]
  have same := (recut x.name name).2 plain
  refine ⟨congrArg Token.text same, rfl, rfl, ?_⟩
  show ∃ i j, x.text source = _ ∧ (x.relabel (Token.recut source')).text source' = _
  rw [text, text, relabel, List.head?_map, List.getLast?_map]
  cases x.part.head? with
  | none => exact ⟨0, 0, rfl, rfl⟩
  | some first =>
      cases last : x.part.getLast? with
      | none => exact ⟨0, 0, rfl, rfl⟩
      | some u =>
          have stop := (recut u (inside (List.mem_of_getLast? last))).1.stop
          refine ⟨first.start.offset, u.stop.offset, ?_, ?_⟩
          · rw [List.extract_eq_take_drop]
            rfl
          · rw [List.extract_eq_take_drop, ← stop]
            rfl

end Reports

/-- With its keywords in another case, a text has the same tokens in the same places,
with the same texts unless they are keywords; it is parsed with the same verdict and
the same outline; and its index lists the same names at the same positions. -/
theorem keyword_case_irrelevant (reportDuplicates : Bool) {source source' : List Char}
    {ts : List Token} (tokens : tokenize source = .ok ts)
    (recased : RecasesKeywords ts source source') :
    (∃ ts', tokenize source' = .ok ts' ∧ List.Forall₂ (fun t t' =>
        t.Recases t' ∧ t'.stop = t.stop ∧ (t.isKeyword = false → t' = t)) ts ts') ∧
      ((parse source').diagnostics = [] ↔ (parse source).diagnostics = []) ∧
      (parse source').outline? = (parse source).outline? ∧
      ∃ report report', Report.ofSource reportDuplicates source = .ok report ∧
        Report.ofSource reportDuplicates source' = .ok report' ∧
        Option.Rel (Index.Alike (Descriptor.Recases source source')) report.index? report'.index? := by
  obtain ⟨tokens', recut⟩ := tokenize_recut recased tokens
  have terminals : (ts.map (Token.recut source')).map Token.terminal = ts.map Token.terminal := by
    rw [List.map_map]
    rfl
  have outline := outline?_parse_of_terminals tokens tokens' terminals
  refine ⟨⟨_, tokens', ?_⟩, ?_, outline, ?_⟩
  · rw [List.forall₂_map_right_iff, List.forall₂_same]
    exact fun t ht => ⟨(recut t ht).1, (recut t ht).1.stop, (recut t ht).2⟩
  · rw [diagnostics_eq_nil_iff_outline?, diagnostics_eq_nil_iff_outline?, outline]
  · refine Report.rel_index?_of_outline? outline ?_ reportDuplicates
    intro root stream root' stream' parsed parsed'
    obtain ⟨_, here, _⟩ := parse_eq_tree_iff.mp parsed
    obtain ⟨_, there, _⟩ := parse_eq_tree_iff.mp parsed'
    obtain rfl := Except.ok.inj (tokens.symm.trans here)
    have announced : declared [] stream'.tokens =
        (declared [] stream.tokens).map (Declared.relabel (Token.recut source')) := by
      rw [← Except.ok.inj (tokens'.symm.trans there)]
      exact @declared_map (Token.recut source') (fun _ => rfl) [] _
    rw [announced]
    refine Index.ofDeclared_alike Descriptor.Recases.identifier fun x hx => ?_
    have inside := ((walk_parsed parsed).2 x hx).subset
    obtain ⟨name, ident⟩ := mem_of_mem_declaredNames (declared_written parsed x hx).2
    exact Declared.recases recased tokens inside (inside name) ident

/-- The small theory with its keywords in small and mixed letters. -/
def mixedTheory : List Char :=
  "T: theory Begin m, n: tYPE c: axiom p END T".toList

theorem recasesKeywords_mixedTheory :
    RecasesKeywords smallTheoryTokens smallTheory mixedTheory := by
  have length : mixedTheory.length = smallTheory.length := by decide +kernel
  refine ⟨length, ?_⟩
  unfold Recases
  decide +kernel

theorem keyword_case_irrelevant_mixedTheory :
    tokenize smallTheory = .ok smallTheoryTokens ∧
      RecasesKeywords smallTheoryTokens smallTheory mixedTheory ∧
      (∃ ts', tokenize mixedTheory = .ok ts' ∧ List.Forall₂ (fun t t' =>
        t.Recases t' ∧ t'.stop = t.stop ∧ (t.isKeyword = false → t' = t)) smallTheoryTokens ts') ∧
      ((parse mixedTheory).diagnostics = [] ↔ (parse smallTheory).diagnostics = []) ∧
      (parse mixedTheory).outline? = (parse smallTheory).outline? ∧
      ∃ report report', Report.ofSource true smallTheory = .ok report ∧
        Report.ofSource true mixedTheory = .ok report' ∧
        Option.Rel (Index.Alike (Descriptor.Recases smallTheory mixedTheory))
          report.index? report'.index? := by
  refine ⟨tokenize_smallTheory, recasesKeywords_mixedTheory, ?_⟩
  exact keyword_case_irrelevant true tokenize_smallTheory recasesKeywords_mixedTheory

end PvsIndex
