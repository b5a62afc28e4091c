import PvsIndex.Proofs.Token.Context

/-!
# The texts of a shape

A shape is a way to take characters off the front of a text.  It is also a
language: the texts that are of this shape, whatever stands around them
(`Shape.Matches`).  The two agree, and the way of taking is greedy:

  * `Shape.matches_take`: what a shape takes is of the shape;
  * `Shape.Matches.length_le`: no longer front of the text is.

So a shape takes nothing exactly if no front of the text is of it
(`Shape.munch_eq_zero_iff`), and where no piece begins no front of the text is of
any shape (`Shape.first?_eq_none_iff`).
-/

namespace PvsIndex

namespace Shape

/-- The text is of the shape.  A name is a letter with letters, digits, `_` and `?`
behind it, a number with a point has digits on both sides of it, and a keyword is
written in whatever case. -/
inductive Matches : Shape → List Char → Prop where
  | name {c : Char} {cs : List Char} :
      isLetter c = true → (∀ d ∈ cs, isNameChar d = true) → Matches .name (c :: cs)
  | whole {figures : List Char} :
      figures ≠ [] → (∀ d ∈ figures, isFigure d = true) → Matches .number figures
  | fraction {figures behind : List Char} :
      figures ≠ [] → (∀ d ∈ figures, isFigure d = true) →
      behind ≠ [] → (∀ d ∈ behind, isFigure d = true) →
        Matches .number (figures ++ '.' :: behind)
  | blank {cs : List Char} : cs ≠ [] → (∀ d ∈ cs, isBlank d = true) → Matches .blank cs
  | string {inner : List Char} :
      '"' ∉ inner → '\n' ∉ inner → Matches .string ('"' :: (inner ++ ['"']))
  | comment {line : List Char} : '\n' ∉ line → Matches .comment ('%' :: line)
  | keyword {k : Keyword} {cs : List Char} :
      cs.map fold = k.spelling.toList → Matches (.keyword k) cs
  | mark (m : Mark) : Matches (.mark m) m.spelling.toList

theorem Matches.ne_nil {s : Shape} {text : List Char} (h : s.Matches text) : text ≠ [] := by
  cases h with
  | name _ _ => exact List.cons_ne_nil _ _
  | whole nonempty _ => exact nonempty
  | fraction nonempty _ _ _ => exact List.append_ne_nil_of_left_ne_nil nonempty _
  | blank nonempty _ => exact nonempty
  | string _ _ => exact List.cons_ne_nil _ _
  | comment _ => exact List.cons_ne_nil _ _
  | @keyword k cs spelled =>
      rintro rfl
      exact absurd spelled.symm (by cases k <;> decide)
  | mark m => cases m <;> decide

/-! ## What is taken is of the shape -/

theorem take_takeWhile_add (f : Char → Bool) (cs : List Char) (n : Nat) :
    cs.take ((cs.takeWhile f).length + n) = cs.takeWhile f ++ (cs.dropWhile f).take n := by
  have both : (cs.takeWhile f ++ cs.dropWhile f).take ((cs.takeWhile f).length + n) = _ :=
    List.take_length_add_append n
  rwa [List.takeWhile_append_dropWhile] at both

theorem take_length_takeWhile (f : Char → Bool) (cs : List Char) :
    cs.take (cs.takeWhile f).length = cs.takeWhile f :=
  (List.prefix_iff_eq_take.mp (List.takeWhile_prefix f)).symm

theorem startsWith_iff {f : Char → Char} : ∀ {word cs : List Char},
    startsWith f word cs = true ↔ word <+: cs.map f
  | [], cs => by simp [startsWith]
  | _ :: _, [] => by simp [startsWith]
  | w :: word, c :: cs => by
      simp only [startsWith, Bool.and_eq_true, decide_eq_true_eq, List.map_cons,
        List.cons_prefix_cons, startsWith_iff]
      rw [eq_comm]

/-- A fixed word is taken as it is spelled, up to `f`. -/
theorem map_take_munchWord {f : Char → Char} {word cs : List Char}
    (taken : munchWord f word cs ≠ 0) : (cs.take (munchWord f word cs)).map f = word := by
  unfold munchWord at taken ⊢
  split at taken
  next found =>
      rw [if_pos found, List.map_take]
      exact (List.prefix_iff_eq_take.mp (startsWith_iff.mp found)).symm
  next => exact absurd rfl taken

/-- The part of a number after its point, where there is one. -/
theorem take_munchFraction {cs : List Char} (taken : munchFraction cs ≠ 0) :
    ∃ behind, cs.take (munchFraction cs) = '.' :: behind ∧ behind ≠ [] ∧
      ∀ d ∈ behind, isFigure d = true := by
  unfold munchFraction at taken ⊢
  split at taken
  next cs =>
      simp only at taken ⊢
      split at taken
      next => exact absurd rfl taken
      next figures =>
          refine ⟨cs.takeWhile isFigure, ?_, ?_, fun _ => List.mem_takeWhile_imp⟩
          · rw [if_neg figures, Nat.add_comm, List.take_succ_cons, take_length_takeWhile]
          · intro empty
            exact figures (congrArg List.length empty)
  next => exact absurd rfl taken

theorem matches_take_munchNumber {cs : List Char} (taken : munchNumber cs ≠ 0) :
    number.Matches (cs.take (munchNumber cs)) := by
  have figures : ∀ d ∈ cs.takeWhile isFigure, isFigure d = true := fun _ => List.mem_takeWhile_imp
  simp only [munchNumber] at taken ⊢
  split at taken
  next => exact absurd rfl taken
  next nonzero =>
      rw [if_neg nonzero, take_takeWhile_add]
      have nonempty : cs.takeWhile isFigure ≠ [] := fun empty =>
        nonzero (congrArg List.length empty)
      by_cases point : munchFraction (cs.dropWhile isFigure) = 0
      · rw [point, List.take_zero, List.append_nil]
        exact .whole nonempty figures
      · obtain ⟨behind, text, more, digits⟩ := take_munchFraction point
        rw [text]
        exact .fraction nonempty figures more digits

theorem matches_take_munchString {cs : List Char} (taken : munchString cs ≠ 0) :
    string.Matches (cs.take (munchString cs)) := by
  cases cs with
  | nil => exact absurd rfl taken
  | cons c cs =>
      by_cases quote : c = '"'
      · subst quote
        rw [munchString_quote] at taken ⊢
        split at taken
        next closing =>
            obtain ⟨rest, behind⟩ := List.head?_eq_some_iff.mp closing
            have inside : ∀ d ∈ cs.takeWhile isQuotable, isQuotable d = true :=
              fun _ => List.mem_takeWhile_imp
            rw [if_pos closing, List.take_succ_cons, take_takeWhile_add, behind]
            refine .string ?_ ?_
            · intro among
              exact absurd (inside _ among) (by decide)
            · intro among
              exact absurd (inside _ among) (by decide)
        next => exact absurd rfl taken
      · exact absurd (munchString_of_ne quote cs) taken

/-- What a shape takes is of the shape. -/
theorem matches_take {s : Shape} {cs : List Char} (taken : s.munch cs ≠ 0) :
    s.Matches (cs.take (s.munch cs)) := by
  cases s with
  | name =>
      cases cs with
      | nil => exact absurd rfl taken
      | cons c cs =>
          simp only [munch, munchName] at taken ⊢
          split at taken
          next letter =>
              rw [if_pos letter, Nat.add_comm, List.take_succ_cons, take_length_takeWhile]
              exact .name letter fun _ => List.mem_takeWhile_imp
          next => exact absurd rfl taken
  | number => exact matches_take_munchNumber taken
  | blank =>
      rw [munch] at taken ⊢
      rw [take_length_takeWhile]
      refine .blank ?_ fun _ => List.mem_takeWhile_imp
      intro empty
      exact taken (congrArg List.length empty)
  | string => exact matches_take_munchString taken
  | comment =>
      rw [munch] at taken ⊢
      unfold munchComment at taken ⊢
      split at taken
      next cs =>
          rw [Nat.add_comm, List.take_succ_cons, take_length_takeWhile]
          refine .comment ?_
          intro among
          exact absurd (List.mem_takeWhile_imp among) (by decide)
      next => exact absurd rfl taken
  | keyword k => exact .keyword (map_take_munchWord taken)
  | mark m =>
      have spelled := map_take_munchWord (f := id) taken
      rw [List.map_id] at spelled
      rw [munch, spelled]
      exact .mark m

/-! ## Nothing longer is -/

theorem length_le_takeWhile {f : Char → Bool} {text : List Char} (inside : ∀ c ∈ text, f c = true)
    (rest : List Char) : text.length ≤ ((text ++ rest).takeWhile f).length := by
  rw [List.takeWhile_append_of_pos inside, List.length_append]
  exact Nat.le_add_right _ _

theorem munchWord_append {f : Char → Char} {word text : List Char} (spelled : text.map f = word)
    (rest : List Char) : munchWord f word (text ++ rest) = text.length := by
  have starts : startsWith f word (text ++ rest) = true := by
    rw [startsWith_iff, List.map_append, spelled]
    exact List.prefix_append _ _
  rw [munchWord, if_pos starts, ← spelled, List.length_map]

/-- A shape takes at least as much as the longest front of the text that is of it. -/
theorem Matches.length_le {s : Shape} {text : List Char} (h : s.Matches text) (rest : List Char) :
    text.length ≤ s.munch (text ++ rest) := by
  cases h with
  | @name c cs letter inside =>
      have within := length_le_takeWhile inside rest
      simp only [munch, munchName, List.cons_append, if_pos letter, List.length_cons]
      omega
  | whole nonempty figures =>
      have within := length_le_takeWhile figures rest
      have more := List.length_pos_of_ne_nil nonempty
      simp only [munch, munchNumber]
      rw [if_neg (by omega)]
      omega
  | @fraction front behind nonempty figures more digits =>
      have within := length_le_takeWhile digits rest
      have first : (front ++ '.' :: (behind ++ rest)).takeWhile isFigure = front := by
        rw [List.takeWhile_append_of_pos figures, List.takeWhile_cons_of_neg (by decide),
          List.append_nil]
      have second : (front ++ '.' :: (behind ++ rest)).dropWhile isFigure =
          '.' :: (behind ++ rest) := by
        rw [List.dropWhile_append_of_pos figures, List.dropWhile_cons_of_neg (by decide)]
      have nonzero := List.length_pos_of_ne_nil nonempty
      have more := List.length_pos_of_ne_nil more
      simp only [munch, munchNumber, List.append_assoc, List.cons_append, first, second,
        munchFraction, List.length_append, List.length_cons]
      rw [if_neg (by omega), if_neg (by omega)]
      omega
  | blank _ inside => exact length_le_takeWhile inside rest
  | @string inner quotes newlines =>
      have inside : ∀ c ∈ inner, isQuotable c = true := by
        intro c among
        have noQuote : c ≠ '"' := fun same => quotes (same ▸ among)
        have noNewline : c ≠ '\n' := fun same => newlines (same ▸ among)
        simp [isQuotable, noQuote, noNewline]
      have closing : (inner ++ '"' :: rest).dropWhile isQuotable = '"' :: rest := by
        rw [List.dropWhile_append_of_pos inside, List.dropWhile_cons_of_neg (by decide)]
      have within := length_le_takeWhile inside ('"' :: rest)
      simp only [munch, List.cons_append, List.append_assoc, List.nil_append, munchString_quote,
        closing, List.head?_cons, List.length_cons, List.length_append, List.length_nil]
      rw [if_pos trivial]
      omega
  | comment one_line =>
      rw [munch, List.cons_append, munchComment_append one_line, List.length_cons]
      exact Nat.le_add_right _ _
  | keyword spelled => exact Nat.le_of_eq (munchWord_append spelled rest).symm
  | mark m => exact Nat.le_of_eq (munchWord_append (f := id) (List.map_id _) rest).symm

/-! ## Where nothing begins -/

/-- A shape takes nothing if and only if no front of the text is of it. -/
theorem munch_eq_zero_iff {s : Shape} {cs : List Char} :
    s.munch cs = 0 ↔ ∀ text, text <+: cs → ¬ s.Matches text := by
  constructor
  · rintro nothing text ⟨rest, rfl⟩ fits
    have nonzero := List.length_pos_of_ne_nil fits.ne_nil
    have within := fits.length_le rest
    omega
  · intro unmatched
    by_contra taken
    exact unmatched _ (List.take_prefix _ _) (matches_take taken)

theorem first?_eq_none_iff {cs : List Char} :
    first? cs = none ↔ ∀ (s : Shape) (text : List Char), text <+: cs → ¬ s.Matches text := by
  have taken : first? cs = none ↔ ∀ s ∈ order, s.munch cs = 0 := by
    simp only [first?, List.find?_eq_none, bne_iff_ne, ne_eq, not_not]
  rw [taken]
  constructor
  · intro nothing s
    exact munch_eq_zero_iff.mp (nothing s s.mem_order)
  · intro unmatched s _
    exact munch_eq_zero_iff.mpr (unmatched s)

end Shape

end PvsIndex
