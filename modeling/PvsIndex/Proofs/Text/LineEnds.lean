import PvsIndex.Proofs.Declaration.Relabel

/-!
# Line ends

A line ends in a line feed, with or without a carriage return in front of it.
`crlf` puts the carriage returns in, and `Place.inCrlf` says where a place of a
text has gone then: it has moved by the line ends before it, and is on the same
line and in the same column as before.

Carriage returns are blanks.  They can stand next to anything solid without
being taken by it, since nothing solid goes past the end of a line; the only
pieces that grow are blanks and comments.  So the solid pieces of `crlf source`
are those of `source` at their new places (`solids_crlf`), and all that reading
the two texts can tell apart is how long the stretches between tokens are.
-/

namespace PvsIndex

/-! ## Texts and places -/

/-- The text with a carriage return in front of every line feed. -/
def crlf (text : List Char) : List Char :=
  text.flatMap fun c => if c = '\n' then ['\r', '\n'] else [c]

@[simp] theorem crlf_nil : crlf [] = [] := rfl

@[simp] theorem crlf_newline (text : List Char) :
    crlf ('\n' :: text) = '\r' :: '\n' :: crlf text := rfl

theorem crlf_cons_of_ne {c : Char} (h : c ≠ '\n') (text : List Char) :
    crlf (c :: text) = c :: crlf text := by
  simp [crlf, h]

@[simp] theorem crlf_append (x y : List Char) : crlf (x ++ y) = crlf x ++ crlf y :=
  List.flatMap_append

theorem crlf_of_one_line {text : List Char} (one_line : '\n' ∉ text) : crlf text = text := by
  induction text with
  | nil => rfl
  | cons c text ih =>
      rw [List.mem_cons, not_or] at one_line
      rw [crlf_cons_of_ne (Ne.symm one_line.1), ih one_line.2]

theorem crlf_drop {source a b : List Char} (ha : a <+: source) (hb : b <+: source) :
    (crlf b).drop (crlf a).length = crlf (b.drop a.length) := by
  rcases List.prefix_or_prefix_of_prefix ha hb with ⟨mid, rfl⟩ | ⟨mid, rfl⟩
  · rw [crlf_append, List.drop_left, List.drop_left]
  · rw [crlf_append, List.drop_eq_nil_of_le (by simp), List.drop_eq_nil_of_le (by simp), crlf_nil]

namespace Place

/-- Where a place of a text is among the carriage returns. -/
def inCrlf (p : Place) : Place :=
  ⟨p.offset + (p.line - 1), p.line, p.column⟩

theorem line_pos_afterAll {p : Place} (line : 1 ≤ p.line) (text : List Char) :
    1 ≤ (p.afterAll text).line := by
  rw [line_afterAll]
  exact Nat.le_add_right_of_le line

/-- Reading the text with carriage returns leads to the corresponding place. -/
theorem inCrlf_afterAll (text : List Char) {p : Place} (line : 1 ≤ p.line) :
    p.inCrlf.afterAll (crlf text) = (p.afterAll text).inCrlf := by
  induction text generalizing p with
  | nil => rfl
  | cons c text ih =>
      have step := @ih (p.after c) (line_pos_afterAll line [c])
      by_cases newline : c = '\n'
      · subst newline
        have here : (p.inCrlf.after '\r').after '\n' = (p.after '\n').inCrlf := by
          simp [after, inCrlf]
          omega
        rw [crlf_newline, afterAll_cons, afterAll_cons, afterAll_cons, here, step]
      · have here : p.inCrlf.after c = (p.after c).inCrlf := by
          simp only [after, inCrlf, if_neg newline, Nat.add_right_comm]
        rw [crlf_cons_of_ne newline, afterAll_cons, afterAll_cons, here, step]

theorem inCrlf_start (text : List Char) :
    (start.afterAll text).inCrlf = start.afterAll (crlf text) :=
  (@inCrlf_afterAll text start (Nat.le_refl 1)).symm

end Place

/-! ## Solid pieces -/

theorem Shape.munchString_append_return (cs : List Char) :
    munchString ('"' :: (cs ++ ['\r'])) = munchString ('"' :: cs) := by
  rw [munchString_quote, munchString_quote]
  cases behind : cs.dropWhile isQuotable with
  | nil =>
      -- the line is over before the string is closed, with or without the return
      rw [List.dropWhile_append, behind]
      rfl
  | cons d ds =>
      have stop : isQuotable d = false := by
        have first := List.head?_dropWhile_not isQuotable cs
        rw [behind] at first
        simpa using first
      have inside : d ∈ cs := by
        refine (List.dropWhile_sublist isQuotable).subset ?_
        rw [behind]
        exact List.mem_cons_self
      have same := takeWhile_append_inside ⟨d, inside, stop⟩ ['\r']
      rw [dropWhile_append_of_takeWhile same, same, behind]
      rfl

/-- A carriage return at the end is nothing to a shape, unless the text begins
with a gap. -/
theorem Shape.munch_append_return (s : Shape) {c : Char} (solid : isGap c = false)
    (cs : List Char) : s.munch (c :: cs ++ ['\r']) = s.munch (c :: cs) := by
  obtain ⟨no_blank, no_comment⟩ : isBlank c = false ∧ c ≠ '%' := by
    simpa [isGap] using solid
  have gap : isGap '\r' = true := by decide
  cases s with
  | blank => simp [munch, no_blank]
  | comment => simp [munch, munchComment, no_comment]
  | string =>
      by_cases quote : c = '"'
      · subst quote
        exact munchString_append_return cs
      · rw [munch, munch, List.cons_append, munchString_of_ne quote, munchString_of_ne quote]
  | name => exact munch_append_gap gap (by decide) _ _
  | number => exact munch_append_gap gap (by decide) _ _
  | keyword k => exact munch_append_gap gap (by simp) _ _
  | mark m => exact munch_append_gap gap (by simp) _ _

/-- Nothing solid goes past the end of a line. -/
theorem Fronts.one_line {q : Piece} {rest : List Char} (h : Fronts q rest)
    (solid : q.isSolid = true) : '\n' ∉ q.text := by
  intro newline
  obtain ⟨x, y, split, _⟩ := List.eq_append_cons_of_mem newline
  obtain ⟨c, cs, text, no_gap⟩ := h.head_of_solid solid
  cases x with
  | nil =>
      rw [split, List.nil_append] at text
      obtain rfl : '\n' = c := (List.cons.inj text).1
      exact absurd no_gap (by decide)
  | cons d x =>
      obtain rfl : d = c := (List.cons.inj (split.symm.trans text)).1
      cases h with
      | @shaped s word _ p found taken =>
          -- the shape would have stopped in front of the line end
          rw [Shape.text_piece] at split
          have stopped := s.munch_append_newline (x := d :: x)
            ⟨d, List.mem_cons_self, Shape.isBlank_of_isGap no_gap⟩ (y ++ rest)
          have fits := s.munch_le (d :: x)
          have longer := congrArg List.length split
          rw [List.length_append, List.length_cons (a := '\n')] at longer
          rw [split, List.append_assoc, List.cons_append (a := '\n'), stopped, ← split] at taken
          omega
      | unreadable p unfit =>
          rw [Piece.text] at split
          simp at split

/-- A solid piece stays at the front when the lines behind it get carriage returns. -/
theorem Fronts.inCrlf {q : Piece} {rest : List Char} (h : Fronts q rest)
    (solid : q.isSolid = true) : Fronts q (crlf rest) := by
  by_cases newline : '\n' ∈ rest
  · obtain ⟨x, y, rfl, one_line⟩ := List.eq_append_cons_of_mem newline
    obtain ⟨c, cs, text, no_gap⟩ := h.head_of_solid solid
    have nonblank := Shape.isBlank_of_isGap no_gap
    refine h.congr fun s => ?_
    have return_line : ∃ d ∈ q.text ++ x ++ ['\r'], isBlank d = false :=
      ⟨c, by simp [text], nonblank⟩
    have line : ∃ d ∈ q.text ++ x, isBlank d = false := ⟨c, by simp [text], nonblank⟩
    calc s.munch (q.text ++ crlf (x ++ '\n' :: y))
        = s.munch (q.text ++ x ++ ['\r'] ++ '\n' :: crlf y) := by
          rw [crlf_append, crlf_of_one_line one_line, crlf_newline]
          simp
      _ = s.munch (q.text ++ x ++ ['\r']) := s.munch_append_newline return_line _
      _ = s.munch (q.text ++ x) := by
          rw [text, List.cons_append]
          exact s.munch_append_return no_gap _
      _ = s.munch (q.text ++ x ++ '\n' :: y) := (s.munch_append_newline line _).symm
      _ = s.munch (q.text ++ (x ++ '\n' :: y)) := by rw [List.append_assoc]
  · rwa [crlf_of_one_line newline]

/-! ## Reading -/

/-- The solid pieces are the same ones, only elsewhere. -/
theorem Yields.inCrlf {p : Place} {text : List Char} {qs : List Piece} (h : Yields p text qs)
    (line : 1 ≤ p.line) : Yields p.inCrlf (crlf text) (qs.map (Piece.carry Place.inCrlf)) := by
  induction h with
  | done p => exact .done _
  | @blank p c rest qs blank _ ih =>
      have behind := ih (Place.line_pos_afterAll line [c])
      have place := Place.inCrlf_afterAll [c] line
      rw [Place.afterAll_cons, Place.afterAll_nil] at place
      rw [← place] at behind
      by_cases newline : c = '\n'
      · subst newline
        exact .blank (by decide) (.blank (by decide) behind)
      · rw [crlf_cons_of_ne newline, crlf_nil] at behind
        rw [crlf_cons_of_ne newline]
        exact .blank blank behind
  | @comment p comment rest qs one_line stop _ ih =>
      have behind := ih (Place.line_pos_afterAll line _)
      have one_line' : '\n' ∉ '%' :: comment := by simpa using one_line
      rw [← Place.inCrlf_afterAll _ line, crlf_of_one_line one_line'] at behind
      rw [crlf_append, crlf_of_one_line one_line']
      cases rest with
      | nil => exact .comment one_line nofun behind
      | cons c rest =>
          obtain rfl : c = '\n' := stop c rfl
          -- the carriage return goes to the comment
          have grown : '\n' ∉ comment ++ ['\r'] := by simpa using one_line
          rw [crlf_newline] at behind ⊢
          have longer := behind.of_blank (by decide)
          have place : ((p.inCrlf.afterAll ('%' :: comment)).after '\r') =
              p.inCrlf.afterAll ('%' :: (comment ++ ['\r'])) := by
            rw [← List.cons_append, Place.afterAll_append]
            rfl
          rw [place] at longer
          have whole := Yields.comment grown (by simp) longer
          simpa using whole
  | @solid q rest qs solid front _ ih =>
      have one_line := crlf_of_one_line (front.one_line solid)
      have behind := ih (Place.line_pos_afterAll line _)
      rw [← Place.inCrlf_afterAll _ line, one_line] at behind
      rw [crlf_append, one_line]
      exact .solid_carry Place.inCrlf solid (front.inCrlf solid) behind

theorem solids_crlf (source : List Char) :
    solids (crlf source) = (solids source).map (Piece.carry Place.inCrlf) :=
  ((yields_solids source).inCrlf (Nat.le_refl 1)).solids_eq

theorem tokenize_crlf {source : List Char} {ts : List Token} (h : tokenize source = .ok ts) :
    tokenize (crlf source) = .ok (ts.map (Token.carry Place.inCrlf)) := by
  rw [tokenize_eq_ok_iff] at h ⊢
  rw [solids_crlf, h, Piece.map_carry_token]

theorem diagnostics_crlf (source : List Char) :
    (parse (crlf source)).diagnostics = (parse source).diagnostics := by
  rw [parse_diagnostics_eq_solids, parse_diagnostics_eq_solids, solids_crlf, Run.ofPieces_carry]
  refine Run.diagnostics_carry ?_ ?_ _
  · intro p
    rfl
  · intro p
    rfl

theorem outline?_crlf (source : List Char) :
    (parse (crlf source)).outline? = (parse source).outline? := by
  have diagnostics := diagnostics_crlf source
  cases outcome : parse source with
  | tree root stream =>
      obtain ⟨_, tokens, _⟩ := parse_eq_tree_iff.mp outcome
      rw [← outcome]
      refine outline?_parse_of_terminals tokens (tokenize_crlf tokens) ?_
      rw [List.map_map]
      rfl
  | rejected reported =>
      cases outcome' : parse (crlf source) with
      | rejected _ => rfl
      | tree root stream =>
          rw [outcome', Parsed.diagnostics] at diagnostics
          obtain ⟨_, _, parsed⟩ := parse_diagnostics_eq_nil_iff.mp diagnostics.symm
          rw [outcome] at parsed
          cases parsed

/-! ## Declarations -/

/-- The descriptor with carriage returns in its declaration. -/
def Descriptor.inCrlf (d : Descriptor) : Descriptor :=
  { d with declaration := crlf d.declaration }

theorem Token.stop_inCrlf {source : List Char} {ts : List Token} (h : tokenize source = .ok ts) :
    ∀ t ∈ ts, (t.carry Place.inCrlf).stop = t.stop.inCrlf := by
  intro t ht
  obtain ⟨_, _, _, _, front⟩ := tokenize_split h t ht
  have one_line : crlf t.text = t.text := crlf_of_one_line (front.one_line rfl)
  have place := Place.inCrlf_afterAll t.text (tokenize_isIn h t ht).1.line.1
  rwa [one_line] at place

theorem declared_crlf {source : List Char} {ts : List Token} (h : tokenize source = .ok ts)
    (inside : ∀ d ∈ declared [] ts, d.part ⊆ ts) :
    Index.ofDeclared (crlf source) (declared [] (ts.map (Token.carry Place.inCrlf))) =
      (Index.ofDeclared source (declared [] ts)).relabel Descriptor.inCrlf := by
  rw [declared_carry]
  refine Index.ofDeclared_relabel (g := Descriptor.inCrlf) (fun _ => rfl) fun d hd => ?_
  have text := Declared.text_carry Place.inCrlf crlf h (inside d hd) rfl (Token.stop_inCrlf h) (by
    intro a b ha hb
    have front : crlf b <+: crlf source := by
      obtain ⟨rest, rfl⟩ := hb
      rw [crlf_append]
      exact List.prefix_append _ _
    rw [Place.inCrlf_start, Place.inCrlf_start, TokenStream.slice_of_fronts [] (crlf a) front,
      crlf_drop ha hb])
  rw [Declared.descriptor, text]
  rfl

/-- How lines end shows in the texts of declarations and nowhere else. -/
theorem line_ends_invisible (source : List Char) :
    (parse (crlf source)).diagnostics = (parse source).diagnostics ∧
      (parse (crlf source)).outline? = (parse source).outline? ∧
      ∀ reportDuplicates, ∃ report report',
        Report.ofSource reportDuplicates source = .ok report ∧
        Report.ofSource reportDuplicates (crlf source) = .ok report' ∧
        report'.index? = report.index?.map (Index.relabel Descriptor.inCrlf) := by
  refine ⟨diagnostics_crlf source, outline?_crlf source, fun reportDuplicates => ?_⟩
  obtain ⟨report, report', made, made', same⟩ := Report.index?_of_outline?
    (Index.relabel Descriptor.inCrlf) id (outline?_crlf source) (by
      intro ts us tokens tokens' inside
      obtain rfl : ts.map (Token.carry Place.inCrlf) = us :=
        Except.ok.inj ((tokenize_crlf tokens).symm.trans tokens')
      exact declared_crlf tokens inside) reportDuplicates
  rw [Option.map_id, id] at same
  exact ⟨report, report', made, made', same⟩

end PvsIndex
