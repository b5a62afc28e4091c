import PvsIndex.Proofs.Token.Solid

/-!
# Lines of a text

A place is counted up character by character.  What it comes to is fixed by the
text before it: the line by its line feeds, the column by what stands behind the
last of them, the margin.  So a place can be told from its offset alone
(`Place.IsIn.isOf`), and it can be found again in the text cut at its line feeds
(`exists_margin`).
-/

namespace PvsIndex

/-! ## The margin -/

/-- A text that is empty or ends with a line feed: what can stand above a line. -/
def EndsLine (above : List Char) : Prop :=
  above = [] ∨ ∃ lines, above = lines ++ ['\n']

/-- Every text has a last line. -/
theorem exists_lastLine (front : List Char) :
    ∃ above margin, front = above ++ margin ∧ EndsLine above ∧ '\n' ∉ margin := by
  induction front with
  | nil => exact ⟨[], [], rfl, Or.inl rfl, List.not_mem_nil⟩
  | cons c front ih =>
      obtain ⟨above, margin, rfl, ended, one_line⟩ := ih
      rcases ended with rfl | ⟨lines, rfl⟩
      · by_cases newline : c = '\n'
        · subst newline
          exact ⟨['\n'], margin, rfl, Or.inr ⟨[], rfl⟩, one_line⟩
        · refine ⟨[], c :: margin, rfl, Or.inl rfl, ?_⟩
          rw [List.mem_cons, not_or]
          exact ⟨Ne.symm newline, one_line⟩
      · exact ⟨c :: (lines ++ ['\n']), margin, rfl, Or.inr ⟨c :: lines, rfl⟩, one_line⟩

theorem extract_middle {α : Type} (before middle rest : List α) :
    (before ++ middle ++ rest).extract before.length (before ++ middle).length = middle := by
  rw [List.extract_eq_take_drop, List.append_assoc, List.drop_left, List.length_append,
    Nat.add_sub_cancel_left, List.take_left]

theorem extract_append_extract {α : Type} (xs : List α) {i j k : Nat} (hij : i ≤ j) (hjk : j ≤ k) :
    xs.extract i j ++ xs.extract j k = xs.extract i k := by
  obtain ⟨m, rfl⟩ := Nat.exists_eq_add_of_le hij
  obtain ⟨n, rfl⟩ := Nat.exists_eq_add_of_le hjk
  have whole : i + m + n - i = m + n := by omega
  simp only [List.extract_eq_take_drop, whole, Nat.add_sub_cancel_left, List.take_add,
    List.drop_drop]

namespace Place

/-- Along a line every character is one more column. -/
theorem column_afterAll_of_line {margin : List Char} (one_line : '\n' ∉ margin) (p : Place) :
    (p.afterAll margin).column = p.column + margin.length := by
  induction margin generalizing p with
  | nil => rfl
  | cons c margin ih =>
      rw [List.mem_cons, not_or] at one_line
      have next : (p.after c).column = p.column + 1 := by
        rw [after, if_neg (Ne.symm one_line.1)]
      rw [afterAll_cons, ih one_line.2, next, List.length_cons]
      omega

/-- Columns begin again behind the end of a line. -/
theorem column_afterAll_of_endsLine {above : List Char} (ended : EndsLine above) :
    (start.afterAll above).column = 1 := by
  rcases ended with rfl | ⟨lines, rfl⟩
  · rfl
  · rw [afterAll_append]
    rfl

theorem column_afterAll_margin {above margin : List Char} (ended : EndsLine above)
    (one_line : '\n' ∉ margin) : (start.afterAll (above ++ margin)).column = margin.length + 1 := by
  rw [afterAll_append, column_afterAll_of_line one_line, column_afterAll_of_endsLine ended,
    Nat.add_comm]

theorem offset_start_afterAll (front : List Char) :
    (start.afterAll front).offset = front.length := by
  rw [offset_afterAll]
  exact Nat.zero_add _

/-! ## Places by their offset -/

/-- The place is that of its offset in the text: lines are counted by the line
feeds before it, and columns from the origin of the line, which is just behind
the last line feed before the place or at the beginning of the text. -/
structure IsOf (p : Place) (source : List Char) : Prop where
  offset : p.offset ≤ source.length
  line : p.line = 1 + (source.take p.offset).count '\n'
  column : ∃ origin ≤ p.offset, (origin = 0 ∨ source[origin - 1]? = some '\n') ∧
    '\n' ∉ source.extract origin p.offset ∧ p.column = p.offset - origin + 1

theorem IsIn.isOf {p : Place} {source : List Char} (h : p.IsIn source) : p.IsOf source := by
  obtain ⟨front, ⟨rest, rfl⟩, rfl⟩ := h
  obtain ⟨above, margin, rfl, ended, one_line⟩ := exists_lastLine front
  have offset := offset_start_afterAll (above ++ margin)
  refine ⟨?_, ?_, above.length, ?_, ?_, ?_, ?_⟩
  · rw [offset]
    exact (List.prefix_append _ rest).length_le
  · rw [offset, List.take_left, line_afterAll]
    rfl
  · rw [offset, List.length_append]
    exact Nat.le_add_right _ _
  · rcases ended with rfl | ⟨lines, rfl⟩
    · exact Or.inl rfl
    · exact Or.inr (by simp)
  · rw [offset, extract_middle]
    exact one_line
  · rw [offset, column_afterAll_margin ended one_line, List.length_append,
      Nat.add_sub_cancel_left]

end Place

/-! ## A text cut at its line feeds -/

theorem length_splitOn_newline (text : List Char) :
    (text.splitOn '\n').length = text.count '\n' + 1 := by
  induction text with
  | nil => rfl
  | cons c text ih =>
      rw [List.splitOn, List.splitOnP_cons_eq_if_modifyHead, List.count_cons]
      split
      · rw [List.length_cons]
        exact congrArg (· + 1) ih
      · rw [List.length_modifyHead]
        exact ih

theorem count_newline_append (lines : List Char) :
    (lines ++ ['\n']).count '\n' = (lines.splitOn '\n').length := by
  rw [length_splitOn_newline, List.count_append]
  rfl

/-- The first line of a text. -/
theorem head?_splitOn_newline {margin : List Char} (one_line : '\n' ∉ margin) (rest : List Char) :
    ((margin ++ rest).splitOn '\n').head? = some (margin ++ rest.takeWhile (· != '\n')) := by
  have whole := List.takeWhile_append_dropWhile (p := (· != '\n')) (l := rest)
  have line : '\n' ∉ margin ++ rest.takeWhile (· != '\n') := by
    rw [List.mem_append, not_or]
    refine ⟨one_line, fun among => ?_⟩
    exact absurd (List.mem_takeWhile_imp among) (by decide)
  cases behind : rest.dropWhile (· != '\n') with
  | nil =>
      rw [behind, List.append_nil] at whole
      rw [whole] at line ⊢
      rw [List.splitOn_eq_singleton line]
      rfl
  | cons c below =>
      have stop := List.head?_dropWhile_not (· != '\n') rest
      rw [behind] at stop
      obtain rfl : c = '\n' := by simpa using stop
      have parts : margin ++ rest =
          (margin ++ rest.takeWhile (· != '\n')) ++ '\n' :: below := by
        rw [List.append_assoc, ← behind, whole]
      rw [parts, List.splitOn_append_cons_self_of_not_mem line]
      rfl

/-- A line stands where the line feeds above it say. -/
theorem getElem?_splitOn_newline {above margin : List Char} (ended : EndsLine above)
    (one_line : '\n' ∉ margin) (rest : List Char) :
    ((above ++ margin ++ rest).splitOn '\n')[above.count '\n']? =
      some (margin ++ rest.takeWhile (· != '\n')) := by
  have first := head?_splitOn_newline one_line rest
  rw [List.head?_eq_getElem?] at first
  rcases ended with rfl | ⟨lines, rfl⟩
  · exact first
  · have parts : lines ++ ['\n'] ++ margin ++ rest = lines ++ '\n' :: (margin ++ rest) := by
      simp
    rw [parts, List.splitOn_append_cons_self, count_newline_append,
      List.getElem?_append_right (Nat.le_refl _), Nat.sub_self]
    exact first

/-- Where a line begins: behind the lines above it and their line feeds. -/
def lineOffset (source : List Char) (number : Nat) : Nat :=
  (((source.splitOn '\n').take number).flatMap (· ++ ['\n'])).length

/-- The lines of a text, each with a line feed, are the text with one more. -/
theorem flatMap_splitOn_newline (text : List Char) :
    (text.splitOn '\n').flatMap (· ++ ['\n']) = text ++ ['\n'] := by
  induction text with
  | nil => rfl
  | cons c text ih =>
      rw [List.splitOn] at ih ⊢
      rw [List.splitOnP_cons_eq_if_modifyHead]
      split
      next newline =>
        obtain rfl := eq_of_beq newline
        rw [List.flatMap_cons, ih]
        rfl
      next =>
        obtain ⟨line, lines, split⟩ := List.exists_cons_of_ne_nil
          (List.splitOnP_ne_nil (· == '\n') text)
        rw [split, List.flatMap_cons] at ih
        rw [split, List.modifyHead_cons, List.flatMap_cons, List.cons_append, List.cons_append, ih,
          List.cons_append]

theorem lineOffset_of_endsLine {above : List Char} (ended : EndsLine above) (rest : List Char) :
    lineOffset (above ++ rest) (above.count '\n') = above.length := by
  rcases ended with rfl | ⟨lines, rfl⟩
  · rfl
  · have parts : lines ++ ['\n'] ++ rest = lines ++ '\n' :: rest := by simp
    rw [lineOffset, count_newline_append, parts, List.splitOn_append_cons_self, List.take_left,
      flatMap_splitOn_newline]

/-- The place behind some front of a text is found again in the text cut at its
line feeds: on the line of that number, at the end of the margin. -/
theorem exists_margin (front rest : List Char) :
    ∃ number margin, (Place.start.afterAll front).line = number + 1 ∧
      (Place.start.afterAll front).column = margin.length + 1 ∧
      ((front ++ rest).splitOn '\n')[number]? = some (margin ++ rest.takeWhile (· != '\n')) ∧
      lineOffset (front ++ rest) number + margin.length = front.length := by
  obtain ⟨above, margin, rfl, ended, one_line⟩ := exists_lastLine front
  refine ⟨above.count '\n', margin, ?_, Place.column_afterAll_margin ended one_line,
    getElem?_splitOn_newline ended one_line rest, ?_⟩
  · rw [Place.line_afterAll, List.count_append, List.count_eq_zero.mpr one_line]
    exact Nat.add_comm 1 _
  · rw [List.append_assoc, lineOffset_of_endsLine ended, List.length_append]

end PvsIndex
