import PvsIndex.Proofs.Token.Context

/-!
# A text without its layout

Blanks and comments only keep words apart.  What is left without them, tokens
and unreadable characters, are the solid pieces of a text, and these are all
that anyone who reads a text gets to see.

`Yields p text qs` says that a text, from the place `p` on, has the solid pieces
`qs`.  The layout is taken off it in portions that are as small as possible: one
blank at a time, or a comment without its line end.  These need not be whole
pieces, so a text can be put together from its parts without a thought for the
blanks that run together where the parts meet.  `yields_iff` ties the judgement
to scanning.
-/

namespace PvsIndex

/-! ## Solid pieces -/

namespace Piece

/-- Is the piece more than layout? -/
def isSolid : Piece → Bool
  | token _ => true
  | unreadable _ => true
  | _ => false

@[simp] theorem isSolid_moveTo (p : Place) (q : Piece) : (q.moveTo p).isSolid = q.isSolid := by
  cases q <;> rfl

end Piece

/-- The solid pieces of a text. -/
def solids (source : List Char) : List Piece :=
  (scan source).filter Piece.isSolid

/-- Layout has no part in the tokens of a text. -/
theorem readableTokens_filter_isSolid : ∀ qs : List Piece,
    readableTokens (qs.filter Piece.isSolid) = readableTokens qs
  | [] => rfl
  | .blank _ _ :: qs => readableTokens_filter_isSolid qs
  | .comment _ _ :: qs => readableTokens_filter_isSolid qs
  | .unreadable _ :: _ => rfl
  | .token t :: qs => congrArg (Except.map (t :: ·)) (readableTokens_filter_isSolid qs)

theorem tokenize_eq_solids (source : List Char) :
    tokenize source = readableTokens (solids source) :=
  (readableTokens_filter_isSolid _).symm

/-- A readable text has nothing solid but its tokens. -/
theorem tokenize_eq_ok_iff {source : List Char} {ts : List Token} :
    tokenize source = .ok ts ↔ solids source = ts.map .token := by
  rw [tokenize_eq_solids]
  have only_tokens : ∀ (qs : List Piece) (ts : List Token), (∀ q ∈ qs, q.isSolid = true) →
      (readableTokens qs = .ok ts ↔ qs = ts.map .token) := by
    intro qs ts solid
    rw [readableTokens_eq_ok_iff]
    constructor
    · rintro ⟨readable, rfl⟩
      rw [List.map_filterMap]
      have each : ∀ q ∈ qs, (q.token?.map Piece.token) = some q := by
        intro q hq
        have isSolid := solid q hq
        have isReadable := readable q hq
        cases q with
        | token t => rfl
        | unreadable u => cases isReadable
        | blank p text => cases isSolid
        | comment p text => cases isSolid
      rw [List.filterMap_congr each, List.filterMap_some]
    · rintro rfl
      refine ⟨?_, ?_⟩
      · intro q hq
        obtain ⟨t, _, rfl⟩ := List.mem_map.mp hq
        rfl
      · rw [List.filterMap_map]
        exact List.filterMap_some
  exact only_tokens _ _ fun q hq => List.of_mem_filter hq

theorem Shape.isBlank_of_isGap {c : Char} (h : isGap c = false) : isBlank c = false :=
  (Bool.or_eq_false_iff.mp h).1

/-- A solid piece begins with no blank and with no comment. -/
theorem Fronts.head_of_solid {q : Piece} {rest : List Char} (h : Fronts q rest)
    (solid : q.isSolid = true) : ∃ c cs, q.text = c :: cs ∧ Shape.isGap c = false := by
  obtain ⟨c, cs, text⟩ := List.exists_cons_of_ne_nil h.text_ne_nil
  refine ⟨c, cs, text, Bool.eq_false_iff.mpr fun gap => ?_⟩
  -- at a gap the first shape is that of blanks or of a comment
  have first : Shape.first? (q.text ++ rest) = some .blank ∨
      Shape.first? (q.text ++ rest) = some .comment := by
    rw [text]
    rcases Bool.or_eq_true_iff.mp gap with blank | sign
    · exact Or.inl (Shape.first?_eq_blank blank _)
    · obtain rfl : c = '%' := of_decide_eq_true sign
      exact Or.inr (Shape.first?_eq_comment _)
  cases h with
  | shaped p found taken =>
      rw [Shape.text_piece, found] at first
      rcases first with same | same
      · cases same
        cases solid
      · cases same
        cases solid
  | unreadable p unfit =>
      rcases first with same | same
      · exact absurd (unfit.symm.trans same) nofun
      · exact absurd (unfit.symm.trans same) nofun

/-! ## Scanning past layout -/

/-- Scanning goes on behind a piece that is at the front. -/
theorem Fronts.scanFrom_eq {q : Piece} {rest : List Char} (h : Fronts q rest) :
    scanFrom q.start 0 (q.text ++ rest) = q :: scanFrom (q.start.afterAll q.text) 0 rest := by
  have cut : Cut q.start [q] rest := ⟨rfl, h, trivial⟩
  have scanned := cut.scanFrom_eq
  rwa [Piece.allText_cons, Piece.allText_nil, List.append_nil] at scanned

/-- Blanks are passed over one by one, though scanning takes them together. -/
theorem filter_scanFrom_blank {c : Char} (blank : isBlank c = true) (p : Place)
    (rest : List Char) :
    (scanFrom p 0 (c :: rest)).filter Piece.isSolid =
      (scanFrom (p.after c) 0 rest).filter Piece.isSolid := by
  have whole := List.takeWhile_append_dropWhile (p := isBlank) (l := rest)
  have stop : (rest.dropWhile isBlank).head?.any isBlank = false := by
    cases behind : rest.dropWhile isBlank with
    | nil => rfl
    | cons d ds =>
        have first := List.head?_dropWhile_not isBlank rest
        rw [behind] at first
        simpa using first
  have blanks : (rest.takeWhile isBlank).all isBlank = true := List.all_takeWhile
  have here : Fronts (.blank p (c :: rest.takeWhile isBlank)) (rest.dropWhile isBlank) :=
    fronts_blank (List.cons_ne_nil _ _) (by simp [blank, blanks]) stop p
  have scanned := here.scanFrom_eq
  simp only [Piece.start, Piece.text, List.cons_append, whole, Place.afterAll_cons] at scanned
  rw [scanned, List.filter_cons_of_neg (by simp [Piece.isSolid])]
  cases run : rest.takeWhile isBlank with
  | nil =>
      rw [run, List.nil_append] at whole
      rw [whole, Place.afterAll_nil]
  | cons d ds =>
      have there : Fronts (.blank (p.after c) (rest.takeWhile isBlank)) (rest.dropWhile isBlank) :=
        fronts_blank (by simp [run]) blanks stop _
      have behind := there.scanFrom_eq
      simp only [Piece.start, Piece.text, whole] at behind
      rw [behind, List.filter_cons_of_neg (by simp [Piece.isSolid]), run]

/-! ## The judgement -/

/-- From the place `p` on, a text has these solid pieces.  A comment goes on to the
end of the line, which is not part of it. -/
inductive Yields : Place → List Char → List Piece → Prop where
  | done (p : Place) : Yields p [] []
  | blank {p : Place} {c : Char} {rest : List Char} {qs : List Piece} :
      isBlank c = true → Yields (p.after c) rest qs → Yields p (c :: rest) qs
  | comment {p : Place} {line rest : List Char} {qs : List Piece} :
      '\n' ∉ line → (∀ c ∈ rest.head?, c = '\n') → Yields (p.afterAll ('%' :: line)) rest qs →
        Yields p ('%' :: line ++ rest) qs
  | solid {q : Piece} {rest : List Char} {qs : List Piece} :
      q.isSolid = true → Fronts q rest → Yields (q.start.afterAll q.text) rest qs →
        Yields q.start (q.text ++ rest) (q :: qs)

namespace Yields

theorem blanks {text rest : List Char} {qs : List Piece} (blank : ∀ c ∈ text, isBlank c = true) :
    ∀ {p : Place}, Yields (p.afterAll text) rest qs → Yields p (text ++ rest) qs := by
  induction text with
  | nil => exact fun h => h
  | cons c text ih =>
      intro p h
      rw [List.forall_mem_cons] at blank
      exact .blank blank.1 (ih blank.2 h)

theorem filter_scanFrom_eq {p : Place} {text : List Char} {qs : List Piece}
    (h : Yields p text qs) : (scanFrom p 0 text).filter Piece.isSolid = qs := by
  induction h with
  | done p => rfl
  | @blank p c rest qs blank _ ih => rw [filter_scanFrom_blank blank, ih]
  | @comment p line rest qs one_line stop _ ih =>
      have scanned := (fronts_comment one_line stop p).scanFrom_eq
      rw [show scanFrom p 0 ('%' :: line ++ rest) = _ from scanned,
        List.filter_cons_of_neg (by simp [Piece.isSolid])]
      exact ih
  | solid solid front _ ih => rw [front.scanFrom_eq, List.filter_cons_of_pos solid, ih]

end Yields

/-- Behind a comment the line is at its end. -/
theorem Fronts.head_of_comment {p : Place} {text rest : List Char}
    (h : Fronts (.comment p text) rest) : ∀ c ∈ rest.head?, c = '\n' := by
  obtain ⟨line, rfl, one_line⟩ := h.of_comment
  intro c hc
  obtain ⟨behind, rfl⟩ := List.head?_eq_some_iff.mp hc
  by_contra other
  -- the line goes on, and the comment would too
  have taken : Shape.comment.munch ('%' :: (line ++ c :: behind)) = line.length + 1 := by
    generalize same : Piece.comment p ('%' :: line) = q at h
    cases h with
    | @shaped s _ _ _ _ taken =>
        cases s with
        | comment =>
            cases same
            exact taken
        | _ => cases same
    | unreadable _ _ => cases same
  rw [Shape.munch, Shape.munchComment_append one_line,
    List.takeWhile_cons_of_pos (by simpa using other), List.length_cons] at taken
  omega

theorem yields_of_cut : ∀ {qs : List Piece} {p : Place}, Cut p qs [] →
    Yields p (Piece.allText qs) (qs.filter Piece.isSolid)
  | [], p, _ => .done p
  | .blank _ text :: qs, _, ⟨rfl, front, cut⟩ => .blanks front.all_blank (yields_of_cut cut)
  | .comment _ text :: qs, _, ⟨rfl, front, cut⟩ => by
      rw [List.append_nil] at front
      have stop := front.head_of_comment
      obtain ⟨line, rfl, one_line⟩ := front.of_comment
      exact .comment one_line stop (yields_of_cut cut)
  | .unreadable u :: qs, _, ⟨rfl, front, cut⟩ => by
      rw [List.append_nil] at front
      exact .solid (q := .unreadable u) rfl front (yields_of_cut cut)
  | .token t :: qs, _, ⟨rfl, front, cut⟩ => by
      rw [List.append_nil] at front
      exact .solid (q := .token t) rfl front (yields_of_cut cut)

/-- The solid pieces of a text are those that are scanned. -/
theorem yields_iff {p : Place} {text : List Char} {qs : List Piece} :
    Yields p text qs ↔ (scanFrom p 0 text).filter Piece.isSolid = qs := by
  constructor
  · exact Yields.filter_scanFrom_eq
  · rintro rfl
    have cut := yields_of_cut (cut_scanFrom p text)
    rwa [Piece.allText, scanFrom_text] at cut

theorem yields_solids (source : List Char) : Yields .start source (solids source) :=
  yields_iff.mpr rfl

theorem Yields.solids_eq {source : List Char} {qs : List Piece} (h : Yields .start source qs) :
    solids source = qs :=
  yields_iff.mp h

/-- A blank at the front can only be passed over. -/
theorem Yields.of_blank {p : Place} {c : Char} {rest : List Char} {qs : List Piece}
    (h : Yields p (c :: rest) qs) (blank : isBlank c = true) : Yields (p.after c) rest qs := by
  rw [yields_iff, filter_scanFrom_blank blank] at h
  exact yields_iff.mpr h

/-! ## Places of solid pieces -/

/-- Every solid piece is at the front of what is left of the text where it starts. -/
theorem Yields.exists_split {p : Place} {text : List Char} {qs : List Piece}
    (h : Yields p text qs) : ∀ q ∈ qs, ∃ before behind, text = before ++ q.text ++ behind ∧
      q.start = p.afterAll before ∧ Fronts q behind := by
  induction h with
  | done p => exact nofun
  | @blank p c rest qs _ _ ih =>
      intro q hq
      obtain ⟨before, behind, rfl, start, front⟩ := ih q hq
      exact ⟨c :: before, behind, rfl, start, front⟩
  | @comment p line rest qs _ _ _ ih =>
      intro q hq
      obtain ⟨before, behind, rfl, start, front⟩ := ih q hq
      refine ⟨'%' :: line ++ before, behind, by simp, ?_, front⟩
      rw [Place.afterAll_append, start]
  | @solid r rest qs _ front _ ih =>
      intro q hq
      rcases List.mem_cons.mp hq with rfl | hq
      · exact ⟨[], rest, rfl, rfl, front⟩
      · obtain ⟨before, behind, rfl, start, front⟩ := ih q hq
        refine ⟨r.text ++ before, behind, by simp, ?_, front⟩
        rw [Place.afterAll_append, start]

/-- A token of a text is at the front of what is left where it starts. -/
theorem tokenize_split {source : List Char} {ts : List Token} (h : tokenize source = .ok ts) :
    ∀ t ∈ ts, ∃ before behind, source = before ++ t.text ++ behind ∧
      t.start = Place.start.afterAll before ∧ Fronts (.token t) behind := by
  intro t ht
  have piece : Piece.token t ∈ solids source := by
    rw [tokenize_eq_ok_iff.mp h]
    exact List.mem_map_of_mem ht
  exact (yields_solids source).exists_split _ piece

theorem Place.line_after (p : Place) (c : Char) :
    (p.after c).line = p.line + [c].count '\n' := by
  by_cases newline : c = '\n'
  · subst newline
    rfl
  · rw [after, if_neg newline, List.count_singleton, if_neg (by simpa using newline)]
    rfl

/-- Lines are counted by line feeds. -/
theorem Place.line_afterAll (p : Place) (text : List Char) :
    (p.afterAll text).line = p.line + text.count '\n' := by
  induction text generalizing p with
  | nil => rfl
  | cons c text ih =>
      have split : (c :: text).count '\n' = [c].count '\n' + text.count '\n' := by
        rw [← List.count_append, List.singleton_append]
      rw [afterAll_cons, ih, line_after, split, Nat.add_assoc]

/-- The place is the one behind some front of the text. -/
def Place.IsIn (p : Place) (source : List Char) : Prop :=
  ∃ front, front <+: source ∧ p = start.afterAll front

/-- The lines of a text are one more than its line feeds. -/
theorem Place.IsIn.line {p : Place} {source : List Char} (h : p.IsIn source) :
    1 ≤ p.line ∧ p.line ≤ 1 + source.count '\n' := by
  obtain ⟨front, inside, rfl⟩ := h
  have fewer := inside.sublist.count_le '\n'
  rw [line_afterAll]
  exact ⟨Nat.le_add_right _ _, Nat.add_le_add_left fewer 1⟩

/-- The tokens of a text start and stop in it. -/
theorem tokenize_isIn {source : List Char} {ts : List Token} (h : tokenize source = .ok ts) :
    ∀ t ∈ ts, t.start.IsIn source ∧ t.stop.IsIn source := by
  intro t ht
  obtain ⟨before, behind, split, start, _⟩ := tokenize_split h t ht
  refine ⟨⟨before, ?_, start⟩, before ++ t.text, ?_, ?_⟩
  · rw [split, List.append_assoc]
    exact List.prefix_append _ _
  · rw [split]
    exact List.prefix_append _ _
  · rw [Token.stop, start, Place.afterAll_append]

end PvsIndex
