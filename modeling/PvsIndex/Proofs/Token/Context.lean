import Mathlib.Data.List.Basic
import Mathlib.Data.List.TakeWhile
import PvsIndex.Proofs.Token.Cut

/-!
# Pieces in another context

What a shape takes depends on what comes behind, so a piece that is moved to
another text, or whose surroundings change, could be cut in another way.  Three
changes do no harm:

  * `Fronts.truncate`: what is behind a readable piece may be cut short, down
    to nothing;
  * `Fronts.newline`: a line end, and anything behind it, may be added to a
    text which does not consist of blanks only;
  * `Fronts.gap`: a token at the end of a text may be followed by a blank or a
    comment, and anything behind these.

The first holds for every shape by itself, since a shape never takes less when
more is there (`Shape.munch_eq_of_le`).  The other two fail for some shapes (a
comment takes a blank behind it, and a lone quote may find its partner), which
is why they ask for something.
-/

namespace PvsIndex

/-! ## Characters -/

theorem isNameChar_of_isLetter {c : Char} (h : isLetter c = true) : isNameChar c = true := by
  simp [isNameChar, h]

theorem isNameChar_of_isFigure {c : Char} (h : isFigure c = true) : isNameChar c = true := by
  simp [isNameChar, h]

/-! ## Taking characters as long as they fit -/

section TakeWhile

variable {f : Char → Bool}

theorem takeWhile_eq_of_le {x tail : List Char}
    (h : ((x ++ tail).takeWhile f).length ≤ x.length) :
    (x ++ tail).takeWhile f = x.takeWhile f := by
  induction x with
  | nil => exact List.eq_nil_of_length_eq_zero (Nat.le_zero.mp h)
  | cons c x ih =>
      cases hc : f c with
      | false => simp [hc]
      | true =>
          have shorter : ((x ++ tail).takeWhile f).length ≤ x.length := by
            simpa [hc] using h
          simp [hc, ih shorter]

theorem takeWhile_append_stop {c : Char} (stop : f c = false) (x y : List Char) :
    (x ++ c :: y).takeWhile f = x.takeWhile f := by
  induction x with
  | nil => simp [stop]
  | cons d x ih => cases hd : f d <;> simp [hd, ih]

theorem takeWhile_append_inside {x : List Char} (inside : ∃ c ∈ x, f c = false)
    (y : List Char) : (x ++ y).takeWhile f = x.takeWhile f := by
  obtain ⟨c, hc, stop⟩ := inside
  obtain ⟨a, b, rfl⟩ := List.append_of_mem hc
  rw [List.append_assoc, List.cons_append, takeWhile_append_stop stop, takeWhile_append_stop stop]

theorem forall_of_length_takeWhile {x rest : List Char}
    (h : ((x ++ rest).takeWhile f).length = x.length) : ∀ c ∈ x, f c = true := by
  have same := takeWhile_eq_of_le (Nat.le_of_eq h)
  rw [same] at h
  rw [← (List.takeWhile_prefix f).eq_of_length h]
  exact fun _ => List.mem_takeWhile_imp

/-- If as many are taken in front of something, as many are left. -/
theorem dropWhile_append_of_takeWhile {x z : List Char}
    (same : (x ++ z).takeWhile f = x.takeWhile f) :
    (x ++ z).dropWhile f = x.dropWhile f ++ z := by
  have whole := List.takeWhile_append_dropWhile (p := f) (l := x ++ z)
  have front := List.takeWhile_append_dropWhile (p := f) (l := x)
  rw [same] at whole
  refine @List.append_cancel_left _ (x.takeWhile f) _ _ ?_
  rw [whole, ← List.append_assoc, front]

end TakeWhile

namespace Shape

/-! ## More text behind -/

theorem munchFraction_eq_of_le {x tail : List Char} (h : munchFraction (x ++ tail) ≤ x.length) :
    munchFraction (x ++ tail) = munchFraction x := by
  cases x with
  | nil => exact Nat.le_zero.mp h
  | cons c x =>
      by_cases dot : c = '.'
      · subst dot
        simp only [List.cons_append, munchFraction, List.length_cons] at h ⊢
        have fits : ((x ++ tail).takeWhile isFigure).length ≤ x.length := by
          split at h <;> omega
        rw [takeWhile_eq_of_le fits]
      · simp [munchFraction, dot]

/-- What stands between the quotes of a string. -/
def isQuotable (c : Char) : Bool :=
  c != '"' && c != '\n'

theorem munchString_quote (cs : List Char) :
    munchString ('"' :: cs) =
      if (cs.dropWhile isQuotable).head? = some '"' then (cs.takeWhile isQuotable).length + 2
      else 0 := by
  have rest : cs.drop (cs.takeWhile isQuotable).length = cs.dropWhile isQuotable := by
    have whole := List.takeWhile_append_dropWhile (p := isQuotable) (l := cs)
    refine @List.append_cancel_left _ (cs.takeWhile isQuotable) _ _ ?_
    rw [whole, List.prefix_iff_eq_append.mp (List.takeWhile_prefix _)]
  unfold isQuotable at rest ⊢
  simp only [munchString, rest]
  split
  next same => simp [same]
  next other =>
      rw [if_neg]
      intro closing
      obtain ⟨ys, same⟩ := List.head?_eq_some_iff.mp closing
      exact other ys same

theorem munchString_of_ne {c : Char} (h : c ≠ '"') (cs : List Char) :
    munchString (c :: cs) = 0 := by
  simp [munchString, h]

/-- A string that is complete takes no notice of what is behind it. -/
theorem munchString_append {x : List Char} (h : munchString x ≠ 0) (z : List Char) :
    munchString (x ++ z) = munchString x := by
  cases x with
  | nil => exact absurd rfl h
  | cons c x =>
      by_cases quote : c = '"'
      · subst quote
        rw [munchString_quote] at h
        have closing : (x.dropWhile isQuotable).head? = some '"' := by
          by_contra none
          rw [if_neg none] at h
          exact h rfl
        have inside : ∃ c ∈ x, isQuotable c = false :=
          ⟨'"', (List.dropWhile_sublist _).subset (List.mem_of_head? closing), by decide⟩
        have same := takeWhile_append_inside inside z
        rw [List.cons_append, munchString_quote, munchString_quote, same,
          dropWhile_append_of_takeWhile same, List.head?_append, closing]
        rfl
      · exact absurd (munchString_of_ne quote x) h

theorem munchString_eq_of_le {x tail : List Char} (h : munchString (x ++ tail) ≤ x.length) :
    munchString (x ++ tail) = munchString x := by
  by_cases complete : munchString x = 0
  · rw [complete]
    cases x with
    | nil => exact Nat.le_zero.mp h
    | cons c x =>
        by_cases quote : c = '"'
        · subst quote
          rw [List.cons_append, munchString_quote] at h ⊢
          split at h
          next closing =>
              -- a string closed within `x` would be complete in `x`
              exfalso
              simp only [List.length_cons] at h
              have same := @takeWhile_eq_of_le isQuotable x tail (by omega)
              have left : x.dropWhile isQuotable ≠ [] := by
                intro nothing
                have whole := List.takeWhile_append_dropWhile (p := isQuotable) (l := x)
                rw [nothing, List.append_nil] at whole
                rw [same, whole] at h
                omega
              rw [dropWhile_append_of_takeWhile same, List.head?_append_of_ne_nil _ left] at closing
              rw [munchString_quote, if_pos closing] at complete
              omega
          next unclosed => rw [if_neg unclosed]
        · exact munchString_of_ne quote _
  · exact munchString_append complete tail

/-- A comment takes its line, and more if the line goes on. -/
theorem munchComment_append {line : List Char} (one_line : '\n' ∉ line) (rest : List Char) :
    munchComment ('%' :: (line ++ rest)) =
      line.length + 1 + (rest.takeWhile (· != '\n')).length := by
  have inside : ∀ c ∈ line, (c != '\n') = true := by
    intro c hc
    have other : c ≠ '\n' := fun same => one_line (same ▸ hc)
    simpa using other
  rw [munchComment, List.takeWhile_append_of_pos inside, List.length_append]
  omega

theorem startsWith_append {f : Char → Char} (tail : List Char) : ∀ {word x : List Char},
    startsWith f word x = true → startsWith f word (x ++ tail) = true
  | [], _, _ => by simp [startsWith]
  | _ :: _, [], h => by cases h
  | _ :: word, _ :: x, h => by
      simp only [startsWith, Bool.and_eq_true, List.cons_append] at h ⊢
      exact ⟨h.1, startsWith_append tail h.2⟩

theorem startsWith_of_append {f : Char → Char} {tail : List Char} : ∀ {word x : List Char},
    startsWith f word (x ++ tail) = true → word.length ≤ x.length → startsWith f word x = true
  | [], _, _, _ => by simp [startsWith]
  | _ :: _, [], _, h => absurd h (Nat.not_succ_le_zero _)
  | _ :: word, _ :: x, h, fits => by
      simp only [startsWith, Bool.and_eq_true, List.cons_append] at h ⊢
      exact ⟨h.1, startsWith_of_append h.2 (Nat.le_of_succ_le_succ fits)⟩

theorem munchWord_eq_of_le {f : Char → Char} {word x tail : List Char}
    (h : munchWord f word (x ++ tail) ≤ x.length) :
    munchWord f word (x ++ tail) = munchWord f word x := by
  unfold munchWord at *
  split at h
  next found => rw [if_pos found, if_pos (startsWith_of_append found h)]
  next absent =>
      rw [if_neg absent, if_neg fun found => absent (startsWith_append tail found)]

/-- What a shape takes within `x`, it takes from `x` alone. -/
theorem munch_eq_of_le {s : Shape} {x tail : List Char} (h : s.munch (x ++ tail) ≤ x.length) :
    s.munch (x ++ tail) = s.munch x := by
  cases s with
  | name =>
      cases x with
      | nil => exact Nat.le_zero.mp h
      | cons c x =>
          simp only [munch, munchName, List.cons_append, List.length_cons] at h ⊢
          split
          next letter =>
              rw [if_pos letter] at h
              rw [takeWhile_eq_of_le (by omega)]
          next => rfl
  | number =>
      simp only [munch, munchNumber] at h ⊢
      have fits : ((x ++ tail).takeWhile isFigure).length ≤ x.length := by
        split at h <;> omega
      have same := takeWhile_eq_of_le fits
      have whole := congrArg List.length (List.takeWhile_append_dropWhile (p := isFigure) (l := x))
      rw [List.length_append] at whole
      rw [same, dropWhile_append_of_takeWhile same] at h ⊢
      split
      next => rfl
      next figures =>
          rw [if_neg figures] at h
          rw [munchFraction_eq_of_le (by omega)]
  | blank =>
      simp only [munch] at h ⊢
      rw [takeWhile_eq_of_le h]
  | string => exact munchString_eq_of_le h
  | comment =>
      cases x with
      | nil => exact Nat.le_zero.mp h
      | cons c x =>
          by_cases sign : c = '%'
          · subst sign
            simp only [munch, munchComment, List.cons_append, List.length_cons] at h ⊢
            rw [takeWhile_eq_of_le (by omega)]
          · simp [munch, munchComment, sign]
  | keyword k => exact munchWord_eq_of_le h
  | mark m => exact munchWord_eq_of_le h

/-! ## A gap behind -/

/-- What can stand between two words: a blank, or the beginning of a comment. -/
def isGap (c : Char) : Bool :=
  isBlank c || c = '%'

/-- A gap goes on with no name and no number, and it stands in no fixed word. -/
theorem gap_apart {c : Char} (gap : isGap c = true) :
    isLetter c = false ∧ isNameChar c = false ∧ isFigure c = false ∧ c ≠ '.' ∧
      (∀ k ∈ Keyword.all, fold c ∉ k.spelling.toList) ∧
      ∀ m ∈ Mark.all, c ∉ m.spelling.toList := by
  have apart : [' ', '\t', '\x0c', '\r', '\n', '%'].all (fun c => decide
      (isLetter c = false ∧ isNameChar c = false ∧ isFigure c = false ∧ c ≠ '.' ∧
        (∀ k ∈ Keyword.all, fold c ∉ k.spelling.toList) ∧
        ∀ m ∈ Mark.all, c ∉ m.spelling.toList)) = true := by
    decide +kernel
  have listed : c ∈ [' ', '\t', '\x0c', '\r', '\n', '%'] := by
    simpa [isGap, isBlank, or_assoc] using gap
  exact of_decide_eq_true (List.all_eq_true.mp apart c listed)

section Gap

variable {c : Char} (gap : isGap c = true)

theorem startsWith_append_stop {f : Char → Char} {y : List Char} : ∀ {word x : List Char},
    f c ∉ word → startsWith f word (x ++ c :: y) = startsWith f word x
  | [], _, _ => by simp [startsWith]
  | w :: word, [], apart => by
      have other : f c ≠ w := fun same => apart (same ▸ List.mem_cons_self)
      simp [startsWith, other]
  | w :: word, d :: x, apart => by
      have rest := @startsWith_append_stop f y word x fun h => apart (List.mem_cons_of_mem _ h)
      simp only [List.cons_append, startsWith, rest]

theorem munchFraction_append_gap (x y : List Char) (gap : isGap c = true) :
    munchFraction (x ++ c :: y) = munchFraction x := by
  obtain ⟨_, _, figure, dot, _⟩ := gap_apart gap
  cases x with
  | nil => simp [munchFraction, dot]
  | cons d x =>
      by_cases point : d = '.'
      · subst point
        simp only [List.cons_append, munchFraction, takeWhile_append_stop figure]
      · simp [munchFraction, point]

include gap

/-- Names, numbers and fixed words stop at a gap. -/
theorem munch_append_gap {s : Shape} (apart : s ≠ .blank ∧ s ≠ .string ∧ s ≠ .comment)
    (x y : List Char) : s.munch (x ++ c :: y) = s.munch x := by
  obtain ⟨letter, nameChar, figure, _, keywords, marks⟩ := gap_apart gap
  cases s with
  | name =>
      cases x with
      | nil => simp [munch, munchName, letter]
      | cons d x =>
          simp only [munch, munchName, List.cons_append, takeWhile_append_stop nameChar]
  | number =>
      have same := takeWhile_append_stop figure x y
      simp only [munch, munchNumber, same, dropWhile_append_of_takeWhile same,
        munchFraction_append_gap _ _ gap]
  | blank => exact absurd rfl apart.1
  | string => exact absurd rfl apart.2.1
  | comment => exact absurd rfl apart.2.2
  | keyword k =>
      have other := keywords k (List.mem_of_getElem? k.all_index)
      simp only [munch, munchWord, startsWith_append_stop other]
  | mark m =>
      have other := marks m (List.mem_of_getElem? m.all_index)
      simp only [munch, munchWord, startsWith_append_stop (f := id) other]

end Gap

/-- A line end and anything behind it is nothing to a shape, unless there are
only blanks before it. -/
theorem munch_append_newline (s : Shape) {x : List Char} (solid : ∃ c ∈ x, isBlank c = false)
    (y : List Char) : s.munch (x ++ '\n' :: y) = s.munch x := by
  have gap : isGap '\n' = true := by decide
  cases s with
  | blank => rw [munch, munch, takeWhile_append_inside solid]
  | string =>
      cases x with
      | nil => simp at solid
      | cons c x =>
          by_cases quote : c = '"'
          · subst quote
            have same := takeWhile_append_stop (f := isQuotable) (c := '\n') (by decide) x y
            simp only [munch, List.cons_append, munchString_quote, same,
              dropWhile_append_of_takeWhile same]
            cases x.dropWhile isQuotable with
            | nil => simp
            | cons d ds => rfl
          · rw [munch, munch, List.cons_append, munchString_of_ne quote, munchString_of_ne quote]
  | comment =>
      cases x with
      | nil => simp at solid
      | cons c x =>
          by_cases sign : c = '%'
          · subst sign
            have same := takeWhile_append_stop (f := (· != '\n')) (c := '\n') (by decide) x y
            simp only [munch, munchComment, List.cons_append, same]
          · simp [munch, munchComment, sign]
  | name => exact munch_append_gap gap (by decide) x y
  | number => exact munch_append_gap gap (by decide) x y
  | keyword k => exact munch_append_gap gap (by simp) x y
  | mark m => exact munch_append_gap gap (by simp) x y

/-! ## First characters -/

/-- Can a text of this shape begin with the character? -/
def opensWith (c : Char) : Shape → Bool
  | name => isLetter c
  | number => isFigure c
  | blank => isBlank c
  | string => c = '"'
  | comment => c = '%'
  | keyword k => k.spelling.toList.head? = some (fold c)
  | mark m => m.spelling.toList.head? = some c

theorem opensWith_of_munchWord {f : Char → Char} {word cs : List Char} {c : Char}
    (taken : munchWord f word (c :: cs) ≠ 0) : word.head? = some (f c) := by
  unfold munchWord at taken
  split at taken
  next found =>
      cases word with
      | nil => exact absurd rfl taken
      | cons w word =>
          simp only [startsWith, Bool.and_eq_true, decide_eq_true_eq] at found
          rw [List.head?_cons, found.1]
  next => exact absurd rfl taken

/-- A shape takes something only if it can begin so. -/
theorem opensWith_of_munch {s : Shape} {c : Char} {cs : List Char}
    (taken : s.munch (c :: cs) ≠ 0) : s.opensWith c = true := by
  cases s with
  | name =>
      by_contra other
      have mismatch : isLetter c = false := Bool.eq_false_iff.mpr other
      simp [munch, munchName, mismatch] at taken
  | number =>
      by_contra other
      have mismatch : isFigure c = false := Bool.eq_false_iff.mpr other
      simp [munch, munchNumber, mismatch] at taken
  | blank =>
      by_contra other
      have mismatch : isBlank c = false := Bool.eq_false_iff.mpr other
      simp [munch, mismatch] at taken
  | string =>
      by_contra other
      have mismatch : c ≠ '"' := by simpa [opensWith] using other
      exact taken (munchString_of_ne mismatch cs)
  | comment =>
      by_contra other
      have mismatch : c ≠ '%' := by simpa [opensWith] using other
      simp [munch, munchComment, mismatch] at taken
  | keyword k => exact decide_eq_true (opensWith_of_munchWord taken)
  | mark m => exact decide_eq_true (opensWith_of_munchWord (f := id) taken)

theorem mem_order (s : Shape) : s ∈ order := by
  cases s with
  | keyword k => simp [order, k.mem_longestFirst]
  | mark m => simp [order, m.mem_longestFirst]
  | _ => simp [order]

/-- Only a string begins with a quote. -/
theorem eq_string_of_opensWith {s : Shape} (h : s.opensWith '"' = true) : s = .string := by
  have only : ∀ s ∈ order, s.opensWith '"' = true → s = .string := by decide +kernel
  exact only s s.mem_order h

/-- Only a comment begins with a per cent sign. -/
theorem eq_comment_of_opensWith {s : Shape} (h : s.opensWith '%' = true) : s = .comment := by
  have only : ∀ s ∈ order, s.opensWith '%' = true → s = .comment := by decide +kernel
  exact only s s.mem_order h

/-- Only blanks begin with a blank. -/
theorem eq_blank_of_opensWith {s : Shape} {c : Char} (blank : isBlank c = true)
    (h : s.opensWith c = true) : s = .blank := by
  have only : order.all (fun s => [' ', '\t', '\x0c', '\r', '\n'].all fun c =>
      decide (s.opensWith c = true → s = .blank)) = true := by
    decide +kernel
  have listed : c ∈ [' ', '\t', '\x0c', '\r', '\n'] := by
    simpa [isBlank, or_assoc] using blank
  exact of_decide_eq_true (List.all_eq_true.mp (List.all_eq_true.mp only s s.mem_order) c listed) h

theorem startsWith_id_iff : ∀ {word cs : List Char},
    startsWith id word cs = true ↔ word <+: cs
  | [], cs => by simp [startsWith]
  | _ :: _, [] => by simp [startsWith]
  | w :: word, c :: cs => by
      simp only [startsWith, Bool.and_eq_true, decide_eq_true_eq, List.cons_prefix_cons,
        startsWith_id_iff, id]
      rw [eq_comm]

/-! ## The first shape -/

/-- The first shape stays the first if it still takes something and the shapes
that took nothing still take nothing. -/
theorem first?_of_first? {cs cs' : List Char} {s : Shape} (found : first? cs = some s)
    (taken : s.munch cs' ≠ 0) (others : ∀ a : Shape, a.munch cs = 0 → a.munch cs' = 0) :
    first? cs' = some s := by
  obtain ⟨_, before, after, split, idle⟩ := List.find?_eq_some_iff_append.mp found
  refine List.find?_eq_some_iff_append.mpr ⟨by simpa using taken, before, after, split, ?_⟩
  intro a ha
  have nothing : a.munch cs = 0 := by simpa using idle a ha
  simpa using others a nothing

/-- The only shape that can begin with a character is the first one there, if it
takes anything. -/
theorem first?_eq_of_only {s : Shape} {c : Char} {cs : List Char} (taken : s.munch (c :: cs) ≠ 0)
    (only : ∀ a : Shape, a.opensWith c = true → a = s) : first? (c :: cs) = some s := by
  cases found : first? (c :: cs) with
  | none =>
      have nothing := List.find?_eq_none.mp found s s.mem_order
      simp [taken] at nothing
  | some a => rw [only a (opensWith_of_munch (munch_ne_zero found))]

/-- Only blanks begin with a blank, so a blank begins blanks. -/
theorem first?_eq_blank {c : Char} (blank : isBlank c = true) (cs : List Char) :
    first? (c :: cs) = some .blank :=
  first?_eq_of_only (by simp [munch, blank]) fun _ => eq_blank_of_opensWith blank

theorem first?_eq_comment (cs : List Char) : first? ('%' :: cs) = some .comment :=
  first?_eq_of_only (by simp [munch, munchComment]) fun _ => eq_comment_of_opensWith

end Shape

/-! ## Pieces -/

/-- Blanks are one piece up to the first character that is not one. -/
theorem fronts_blank {text rest : List Char} (nonempty : text ≠ [])
    (blanks : text.all isBlank = true) (stop : rest.head?.any isBlank = false)
    (p : Place) : Fronts (.blank p text) rest := by
  have blank := List.all_eq_true.mp blanks
  have first : Shape.first? (text ++ rest) = some .blank := by
    cases text with
    | nil => exact absurd rfl nonempty
    | cons c text => exact Shape.first?_eq_blank (blank c List.mem_cons_self) _
  have taken : Shape.blank.munch (text ++ rest) = text.length := by
    have stopped : rest.takeWhile isBlank = [] := by
      cases rest with
      | nil => rfl
      | cons c rest => rw [List.takeWhile_cons_of_neg (by simpa using stop)]
    rw [Shape.munch, List.takeWhile_append_of_pos blank, stopped, List.append_nil]
  exact .shaped p first taken

/-- A comment is one piece up to the end of the line. -/
theorem fronts_comment {line rest : List Char} (one_line : '\n' ∉ line)
    (stop : ∀ c ∈ rest.head?, c = '\n') (p : Place) : Fronts (.comment p ('%' :: line)) rest := by
  have stopped : rest.takeWhile (· != '\n') = [] := by
    cases rest with
    | nil => rfl
    | cons c rest => rw [List.takeWhile_cons_of_neg (by simpa using stop)]
  have taken : Shape.comment.munch ('%' :: line ++ rest) = ('%' :: line).length := by
    rw [List.cons_append, Shape.munch, Shape.munchComment_append one_line, stopped]
    rfl
  exact .shaped p (Shape.first?_eq_comment _) taken

theorem Fronts.of_token {t : Token} {rest : List Char} (h : Fronts (.token t) rest) :
    ∃ s : Shape, s.piece t.start t.text = .token t ∧ Shape.first? (t.text ++ rest) = some s ∧
      s.munch (t.text ++ rest) = t.text.length := by
  generalize same : Piece.token t = q at h
  cases h with
  | @shaped s text _ p found taken =>
      obtain rfl : t.text = text := by
        have texts := congrArg Piece.text same
        rwa [Shape.text_piece] at texts
      obtain rfl : t.start = p := by
        have starts := congrArg Piece.start same
        rwa [Shape.start_piece] at starts
      exact ⟨s, rfl, found, taken⟩
  | unreadable _ _ => cases same

theorem Fronts.all_blank {p : Place} {text rest : List Char} (h : Fronts (.blank p text) rest) :
    ∀ c ∈ text, isBlank c = true := by
  generalize same : Piece.blank p text = q at h
  cases h with
  | @shaped s _ _ _ found taken =>
      cases s with
      | blank =>
          cases same
          exact forall_of_length_takeWhile taken
      | _ => cases same
  | unreadable _ _ => cases same

theorem Fronts.of_comment {p : Place} {text rest : List Char} (h : Fronts (.comment p text) rest) :
    ∃ line, text = '%' :: line ∧ '\n' ∉ line := by
  generalize same : Piece.comment p text = q at h
  cases h with
  | @shaped s _ _ _ found taken =>
      cases s with
      | comment =>
          cases same
          cases text with
          | nil => exact absurd taken (Shape.munch_ne_zero found)
          | cons c line =>
              obtain rfl : c = '%' := by
                have opens := Shape.opensWith_of_munch (Shape.munch_ne_zero found)
                simpa [Shape.opensWith] using opens
              refine ⟨line, rfl, fun inside => ?_⟩
              have one_line : ∀ d ∈ line, (d != '\n') = true := by
                refine @forall_of_length_takeWhile (· != '\n') line rest ?_
                simp only [Shape.munch, Shape.munchComment, List.cons_append,
                  List.length_cons] at taken
                omega
              exact absurd (one_line _ inside) (by decide)
      | _ => cases same
  | unreadable _ _ => cases same

/-- What is behind a readable piece may be cut short. -/
theorem Fronts.truncate {q : Piece} {mid tail : List Char} (h : Fronts q (mid ++ tail))
    (readable : q.isReadable = true) : Fronts q mid := by
  cases h with
  | @shaped s text _ p found taken =>
      rw [← List.append_assoc] at found taken
      have same : s.munch (text ++ mid ++ tail) = s.munch (text ++ mid) := by
        refine Shape.munch_eq_of_le ?_
        rw [taken, List.length_append]
        exact Nat.le_add_right _ _
      refine .shaped p (Shape.first?_of_first? found ?_ ?_) (same ▸ taken)
      · rw [← same]
        exact Shape.munch_ne_zero found
      · intro a nothing
        rw [← @Shape.munch_eq_of_le a _ tail (by omega), nothing]
  | unreadable _ _ => cases readable

/-- What is behind a piece may change if every shape takes as much as before. -/
theorem Fronts.congr {q : Piece} {rest rest' : List Char} (h : Fronts q rest)
    (same : ∀ s : Shape, s.munch (q.text ++ rest') = s.munch (q.text ++ rest)) :
    Fronts q rest' := by
  have first : Shape.first? (q.text ++ rest') = Shape.first? (q.text ++ rest) := by
    simp only [Shape.first?, same]
  cases h with
  | @shaped s text _ p found taken =>
      rw [Shape.text_piece] at same first
      exact .shaped p (first.trans found) ((same s).trans taken)
  | unreadable p unfit => exact .unreadable p (first.trans unfit)

/-- A line end and anything behind it may be added to a text that is not blank. -/
theorem Fronts.newline {q : Piece} {rest : List Char} (h : Fronts q rest)
    (solid : ∃ c ∈ q.text ++ rest, isBlank c = false) (y : List Char) :
    Fronts q (rest ++ '\n' :: y) := by
  refine h.congr fun s => ?_
  rw [← List.append_assoc]
  exact s.munch_append_newline solid y

/-- A token at the end of a text may be followed by a gap and anything behind it. -/
theorem Fronts.gap {t : Token} (h : Fronts (.token t) []) {c : Char} (gap : Shape.isGap c = true)
    (y : List Char) : Fronts (.token t) (c :: y) := by
  obtain ⟨s, piece, found, taken⟩ := h.of_token
  rw [List.append_nil] at found taken
  have word : s ≠ .blank ∧ s ≠ .comment := by
    constructor
    · rintro rfl
      cases piece
    · rintro rfl
      cases piece
  have some_taken := Shape.munch_ne_zero found
  have same : s.munch (t.text ++ c :: y) = s.munch t.text := by
    by_cases string : s = .string
    · subst string
      exact Shape.munchString_append some_taken _
    · exact Shape.munch_append_gap gap ⟨word.1, string, word.2⟩ _ _
  rw [← piece]
  refine .shaped t.start (Shape.first?_of_first? found (same ▸ some_taken) ?_) (same.trans taken)
  intro a nothing
  cases text : t.text with
  | nil =>
      rw [text, List.length_nil] at taken
      exact absurd (text ▸ taken) some_taken
  | cons d ds =>
      -- a shape that takes something now could have begun here before
      by_contra now
      rw [text] at nothing some_taken
      have opens : a.opensWith d = true := Shape.opensWith_of_munch now
      cases a with
      | blank => simp [Shape.munch, show isBlank d = true from opens] at nothing
      | comment =>
          obtain rfl : d = '%' := by simpa [Shape.opensWith] using opens
          simp [Shape.munch, Shape.munchComment] at nothing
      | string =>
          obtain rfl : d = '"' := by simpa [Shape.opensWith] using opens
          obtain rfl := Shape.eq_string_of_opensWith (Shape.opensWith_of_munch some_taken)
          exact some_taken nothing
      | name => exact now ((Shape.munch_append_gap gap (by decide) _ _).trans nothing)
      | number => exact now ((Shape.munch_append_gap gap (by decide) _ _).trans nothing)
      | keyword k => exact now ((Shape.munch_append_gap gap (by simp) _ _).trans nothing)
      | mark m => exact now ((Shape.munch_append_gap gap (by simp) _ _).trans nothing)

/-- A token does not begin with a blank. -/
theorem Fronts.solid {t : Token} {rest : List Char} (h : Fronts (.token t) rest) :
    ∃ c cs, t.text = c :: cs ∧ isBlank c = false := by
  obtain ⟨s, piece, found, taken⟩ := h.of_token
  have some_taken := Shape.munch_ne_zero found
  cases text : t.text with
  | nil =>
      rw [text, List.length_nil] at taken
      exact absurd (text ▸ taken) some_taken
  | cons c cs =>
      refine ⟨c, cs, rfl, ?_⟩
      rw [text, List.cons_append] at some_taken
      by_contra blank
      obtain rfl := Shape.eq_blank_of_opensWith (by simpa using blank)
        (Shape.opensWith_of_munch some_taken)
      cases piece

/-- A mark is written as it is spelled. -/
theorem Shape.text_of_mark {m : Mark} {text rest : List Char}
    (found : Shape.first? (text ++ rest) = some (.mark m))
    (taken : Shape.munch (.mark m) (text ++ rest) = text.length) : text = m.spelling.toList := by
  have some_taken := Shape.munch_ne_zero found
  simp only [Shape.munch, Shape.munchWord] at taken some_taken
  split at taken
  next starts =>
      have front := Shape.startsWith_id_iff.mp starts
      have within := List.prefix_of_prefix_length_le front (List.prefix_append text rest)
        (Nat.le_of_eq taken)
      exact (within.eq_of_length taken).symm
  next absent =>
      rw [if_neg absent] at some_taken
      exact absurd rfl some_taken

/-- A token that begins with a less sign is a mark of at most three signs. -/
theorem Fronts.text_of_less {t : Token} {rest cs : List Char} (h : Fronts (.token t) rest)
    (text : t.text = '<' :: cs) : cs ∈ ["".toList, "=".toList, "=>".toList] := by
  obtain ⟨s, piece, found, taken⟩ := h.of_token
  have marks : ∀ s ∈ Shape.order, s.opensWith '<' = true →
      s ∈ [Mark.less, Mark.atMost, Mark.equivalent].map Shape.mark := by decide +kernel
  have opens : s.opensWith '<' = true := by
    have some_taken := Shape.munch_ne_zero found
    rw [text] at some_taken
    exact Shape.opensWith_of_munch some_taken
  obtain ⟨m, hm, rfl⟩ := List.mem_map.mp (marks s s.mem_order opens)
  have spelled := Shape.text_of_mark found taken
  have short : ∀ m ∈ [Mark.less, Mark.atMost, Mark.equivalent],
      m.spelling.toList.tail ∈ ["".toList, "=".toList, "=>".toList] := by decide
  have tail := short m hm
  rwa [← spelled, text, List.tail_cons] at tail

/-! ## Rows of pieces -/

theorem FrontsAll.truncate {mid tail : List Char} : ∀ {qs : List Piece},
    FrontsAll qs (mid ++ tail) → (∀ q ∈ qs, q.isReadable = true) → FrontsAll qs mid
  | [], _, _ => trivial
  | q :: qs, ⟨front, all⟩, readable => by
      rw [← List.append_assoc] at front
      rw [List.forall_mem_cons] at readable
      exact ⟨front.truncate readable.1, all.truncate readable.2⟩

theorem FrontsAll.newline {rest : List Char} (y : List Char) : ∀ {qs : List Piece},
    FrontsAll qs rest → (∀ q ∈ qs.getLast?, q.text.all isBlank = false) →
      FrontsAll qs (rest ++ '\n' :: y)
  | [], _, _ => trivial
  | q :: qs, ⟨front, all⟩, solid => by
      have here : ∃ c ∈ q.text ++ (Piece.allText qs ++ rest), isBlank c = false := by
        obtain ⟨last, hl⟩ := Option.isSome_iff_exists.mp
          (List.getLast?_isSome.mpr (List.cons_ne_nil q qs))
        obtain ⟨c, hc, nonblank⟩ := List.all_eq_false.mp (solid last hl)
        refine ⟨c, ?_, Bool.eq_false_iff.mpr nonblank⟩
        have inside : c ∈ Piece.allText (q :: qs) :=
          List.mem_flatMap.mpr ⟨last, List.mem_of_getLast? hl, hc⟩
        rw [Piece.allText_cons, List.mem_append] at inside
        simp only [List.mem_append]
        tauto
      have behind := front.newline here y
      rw [List.append_assoc] at behind
      refine ⟨behind, all.newline y ?_⟩
      intro r hr
      cases qs with
      | nil => cases hr
      | cons q' qs => exact solid r (by rwa [List.getLast?_cons_cons])

end PvsIndex
