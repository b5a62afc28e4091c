import Mathlib.Data.List.Forall2
import PvsIndex.Proofs.Token.Context

/-!
# Letters in another case

Scanning does not tell a letter from the same letter in another case.  Every test
of a character that a shape makes is either the same for all letters of the
alphabet, or compares with a character that is not a letter, or comes after
folding (`Recases`).  So a text in which some letters are in another case is cut
into pieces of the same lengths and kinds at the same places
(`scanFrom_recased`).  Keywords are no exception, however they are recognised.
-/

namespace PvsIndex

/-! ## Characters -/

/-- The letters of the alphabet, in both cases. -/
def alphabet : List Char :=
  ((List.range 123).map Char.ofNat).filter isLetter

theorem mem_alphabet {c : Char} (h : isLetter c = true) : c ∈ alphabet := by
  have bound : ∀ d : Char, c ≤ d → c.toNat ≤ d.toNat := fun _ le => UInt32.le_iff_toNat_le.mp le
  have small : c.toNat < 123 := by
    simp only [isLetter, Bool.or_eq_true, Bool.and_eq_true, decide_eq_true_eq] at h
    rcases h with ⟨_, le⟩ | ⟨_, le⟩
    · exact Nat.lt_of_le_of_lt (bound 'z' le) (by decide)
    · exact Nat.lt_of_le_of_lt (bound 'Z' le) (by decide)
  refine List.mem_filter.mpr ⟨List.mem_map.mpr ⟨c.toNat, List.mem_range.mpr small, ?_⟩, h⟩
  exact Char.ofNat_toNat c

/-- What is so for the letters one by one is so for every letter. -/
theorem forall_isLetter {f : Char → Bool} {answer : Bool}
    (each : alphabet.all (fun c => f c == answer) = true) {c : Char} (h : isLetter c = true) :
    f c = answer :=
  eq_of_beq (List.all_eq_true.mp each c (mem_alphabet h))

/-- The character is `c`, or the letter `c` in upper or lower case. -/
def Recases (c c' : Char) : Prop :=
  c' = c ∨ isLetter c = true ∧ (c' = c.toUpper ∨ c' = c.toLower)

namespace Recases

variable {c c' : Char}

theorem isLetter_eq (h : Recases c c') : isLetter c' = isLetter c := by
  rcases h with rfl | ⟨letter, rfl | rfl⟩
  · rfl
  · rw [letter]
    exact forall_isLetter (f := fun c => isLetter c.toUpper) (by decide +kernel) letter
  · rw [letter]
    exact forall_isLetter (f := fun c => isLetter c.toLower) (by decide +kernel) letter

theorem fold_eq (h : Recases c c') : fold c' = fold c := by
  rcases h with rfl | ⟨letter, rfl | rfl⟩
  · rfl
  · refine eq_of_beq (forall_isLetter (f := fun c => fold c.toUpper == fold c) ?_ letter)
    decide +kernel
  · refine eq_of_beq (forall_isLetter (f := fun c => fold c.toLower == fold c) ?_ letter)
    decide +kernel

/-- A test that all letters pass, or none, does not tell them apart. -/
theorem congr (h : Recases c c') {f : Char → Bool} {answer : Bool}
    (letters : ∀ {c}, isLetter c = true → f c = answer) : f c' = f c := by
  cases letter : isLetter c with
  | true => rw [letters letter, letters (h.isLetter_eq.trans letter)]
  | false =>
      rcases h with rfl | ⟨yes, _⟩
      · rfl
      · rw [letter] at yes
        cases yes

/-- No letter turns into another character, nor the other way round. -/
theorem eq_iff (h : Recases c c') {d : Char} (other : isLetter d = false) : c' = d ↔ c = d := by
  have same : decide (c' = d) = decide (c = d) := by
    refine @congr c c' h (fun c => decide (c = d)) false fun letter => decide_eq_false ?_
    rintro rfl
    rw [letter] at other
    cases other
  rwa [decide_eq_decide] at same

theorem after_eq (h : Recases c c') (p : Place) : p.after c' = p.after c := by
  simp only [Place.after, h.eq_iff (show isLetter '\n' = false by decide)]

end Recases

/-! ## Rows of characters -/

/-- The text, with some letters in another case. -/
abbrev RecasesAll (cs cs' : List Char) : Prop :=
  List.Forall₂ Recases cs cs'

namespace RecasesAll

variable {cs cs' : List Char}

theorem map_fold (h : RecasesAll cs cs') : cs'.map fold = cs.map fold := by
  induction h with
  | nil => rfl
  | cons same _ ih => rw [List.map_cons, List.map_cons, same.fold_eq, ih]

theorem afterAll_eq (h : RecasesAll cs cs') (p : Place) : p.afterAll cs' = p.afterAll cs := by
  induction h generalizing p with
  | nil => rfl
  | cons same _ ih => rw [Place.afterAll_cons, Place.afterAll_cons, same.after_eq, ih]

theorem head?_eq_some_iff (h : RecasesAll cs cs') {d : Char} (other : isLetter d = false) :
    cs'.head? = some d ↔ cs.head? = some d := by
  cases h with
  | nil => rfl
  | cons same _ =>
      rw [List.head?_cons, List.head?_cons, Option.some_inj, Option.some_inj, same.eq_iff other]

section Test

variable {f : Char → Bool} {answer : Bool}
  (letters : ∀ {c : Char}, isLetter c = true → f c = answer)

include letters

theorem length_takeWhile (h : RecasesAll cs cs') :
    (cs'.takeWhile f).length = (cs.takeWhile f).length := by
  induction h with
  | nil => rfl
  | @cons c c' cs cs' same _ ih =>
      rw [List.takeWhile_cons, List.takeWhile_cons, same.congr letters]
      cases f c with
      | true => exact congrArg Nat.succ ih
      | false => rfl

theorem dropWhile (h : RecasesAll cs cs') : RecasesAll (cs.dropWhile f) (cs'.dropWhile f) := by
  induction h with
  | nil => exact .nil
  | @cons c c' cs cs' same rest ih =>
      rw [List.dropWhile_cons, List.dropWhile_cons, same.congr letters]
      cases f c with
      | true => exact ih
      | false => exact .cons same rest

end Test

end RecasesAll

/-! ## Shapes -/

namespace Shape

theorem isFigure_of_isLetter {c : Char} (h : isLetter c = true) : isFigure c = false :=
  forall_isLetter (by decide +kernel) h

theorem isBlank_of_isLetter {c : Char} (h : isLetter c = true) : isBlank c = false :=
  forall_isLetter (by decide +kernel) h

theorem isQuotable_of_isLetter {c : Char} (h : isLetter c = true) : isQuotable c = true :=
  forall_isLetter (by decide +kernel) h

theorem bne_newline_of_isLetter {c : Char} (h : isLetter c = true) : (c != '\n') = true :=
  forall_isLetter (f := (· != '\n')) (by decide +kernel) h

variable {cs cs' : List Char}

theorem munchName_recased (h : RecasesAll cs cs') : munchName cs' = munchName cs := by
  cases h with
  | nil => rfl
  | cons same rest =>
      rw [munchName, munchName, same.isLetter_eq,
        RecasesAll.length_takeWhile isNameChar_of_isLetter rest]

theorem munchFraction_recased (h : RecasesAll cs cs') : munchFraction cs' = munchFraction cs := by
  cases h with
  | nil => rfl
  | @cons c c' cs cs' same rest =>
      have point := same.eq_iff (show isLetter '.' = false by decide)
      by_cases here : c = '.'
      · subst here
        obtain rfl := point.mpr rfl
        simp only [munchFraction, RecasesAll.length_takeWhile isFigure_of_isLetter rest]
      · have there : ¬ c' = '.' := fun h => here (point.mp h)
        simp [munchFraction, here, there]

theorem munchNumber_recased (h : RecasesAll cs cs') : munchNumber cs' = munchNumber cs := by
  simp only [munchNumber, RecasesAll.length_takeWhile isFigure_of_isLetter h,
    munchFraction_recased (RecasesAll.dropWhile isFigure_of_isLetter h)]

theorem munchString_recased (h : RecasesAll cs cs') : munchString cs' = munchString cs := by
  cases h with
  | nil => rfl
  | @cons c c' cs cs' same rest =>
      have quote := same.eq_iff (show isLetter '"' = false by decide)
      by_cases here : c = '"'
      · subst here
        obtain rfl := quote.mpr rfl
        have closing := (RecasesAll.dropWhile isQuotable_of_isLetter rest).head?_eq_some_iff
          (show isLetter '"' = false by decide)
        rw [munchString_quote, munchString_quote,
          RecasesAll.length_takeWhile isQuotable_of_isLetter rest]
        simp only [closing]
      · have there : c' ≠ '"' := fun h => here (quote.mp h)
        rw [munchString_of_ne here, munchString_of_ne there]

theorem munchComment_recased (h : RecasesAll cs cs') : munchComment cs' = munchComment cs := by
  cases h with
  | nil => rfl
  | @cons c c' cs cs' same rest =>
      have percent := same.eq_iff (show isLetter '%' = false by decide)
      by_cases here : c = '%'
      · subst here
        obtain rfl := percent.mpr rfl
        simp only [munchComment, RecasesAll.length_takeWhile bne_newline_of_isLetter rest]
      · have there : ¬ c' = '%' := fun h => here (percent.mp h)
        simp [munchComment, here, there]

theorem startsWith_recased {f : Char → Char} {word : List Char}
    (same : ∀ w ∈ word, ∀ c c', Recases c c' → (f c' = w ↔ f c = w)) (h : RecasesAll cs cs') :
    startsWith f word cs' = startsWith f word cs := by
  induction word generalizing cs cs' with
  | nil => rfl
  | cons w word ih =>
      cases h with
      | nil => rfl
      | cons here rest =>
          have first := same w List.mem_cons_self _ _ here
          rw [startsWith, startsWith,
            ih (fun v hv => same v (List.mem_cons_of_mem _ hv)) rest, decide_eq_decide.mpr first]

/-- No mark has a letter in it. -/
theorem isLetter_of_mem_spelling (m : Mark) : ∀ c ∈ m.spelling.toList, isLetter c = false := by
  have every : Mark.all.all (fun m => m.spelling.toList.all fun c => !isLetter c) = true := by
    decide +kernel
  intro c hc
  have apart := List.all_eq_true.mp every m (List.mem_of_getElem? m.all_index)
  simpa using List.all_eq_true.mp apart c hc

/-- Every shape takes as many characters. -/
theorem munch_recased (s : Shape) (h : RecasesAll cs cs') : s.munch cs' = s.munch cs := by
  cases s with
  | name => exact munchName_recased h
  | number => exact munchNumber_recased h
  | blank => exact RecasesAll.length_takeWhile isBlank_of_isLetter h
  | string => exact munchString_recased h
  | comment => exact munchComment_recased h
  | keyword k =>
      rw [munch, munch, munchWord, munchWord, startsWith_recased _ h]
      intro w _ c c' same
      rw [same.fold_eq]
  | mark m =>
      rw [munch, munch, munchWord, munchWord, startsWith_recased _ h]
      intro w hw c c' same
      exact same.eq_iff (isLetter_of_mem_spelling m w hw)

theorem first?_recased (h : RecasesAll cs cs') : first? cs' = first? cs := by
  simp only [first?, munch_recased _ h]

theorem nameTerminal_recased (h : RecasesAll cs cs') : nameTerminal cs' = nameTerminal cs := by
  rw [nameTerminal, nameTerminal, keyword?, keyword?, h.map_fold]

end Shape

/-! ## Pieces -/

/-- The token, with some letters in another case. -/
structure Token.Recases (t t' : Token) : Prop where
  start : t'.start = t.start
  terminal : t'.terminal = t.terminal
  text : RecasesAll t.text t'.text

theorem Token.Recases.stop {t t' : Token} (h : t.Recases t') : t'.stop = t.stop := by
  rw [Token.stop, Token.stop, h.start, h.text.afterAll_eq]

/-- The piece, with some letters in another case. -/
inductive Piece.Recases : Piece → Piece → Prop where
  | blank (p : Place) {text text' : List Char} :
      RecasesAll text text' → Recases (.blank p text) (.blank p text')
  | comment (p : Place) {text text' : List Char} :
      RecasesAll text text' → Recases (.comment p text) (.comment p text')
  | token {t t' : Token} : t.Recases t' → Recases (.token t) (.token t')
  | unreadable (p : Place) {c c' : Char} :
      PvsIndex.Recases c c' → Recases (.unreadable ⟨p, c⟩) (.unreadable ⟨p, c'⟩)

theorem Piece.Recases.text {q q' : Piece} (h : q.Recases q') : RecasesAll q.text q'.text := by
  cases h with
  | blank p same => exact same
  | comment p same => exact same
  | token same => exact same.text
  | unreadable p same => exact .cons same .nil

theorem Shape.piece_recased (s : Shape) (p : Place) {text text' : List Char}
    (h : RecasesAll text text') : (s.piece p text).Recases (s.piece p text') := by
  cases s with
  | name => exact .token ⟨rfl, nameTerminal_recased h, h⟩
  | number => exact .token ⟨rfl, rfl, h⟩
  | blank => exact .blank p h
  | string => exact .token ⟨rfl, rfl, h⟩
  | comment => exact .comment p h
  | keyword k => exact .token ⟨rfl, rfl, h⟩
  | mark m => exact .token ⟨rfl, rfl, h⟩

theorem frontPiece_recased {c c' : Char} {cs cs' : List Char} (p : Place)
    (h : RecasesAll (c :: cs) (c' :: cs')) :
    (frontPiece p c cs).Recases (frontPiece p c' cs') := by
  rw [frontPiece, frontPiece, Shape.first?_recased h]
  cases Shape.first? (c :: cs) with
  | none =>
      cases h with
      | cons same _ => exact .unreadable p same
  | some s =>
      simp only [Shape.munch_recased s h]
      exact s.piece_recased p (List.forall₂_take _ h)

/-- A text with some letters in another case is cut in the same places. -/
theorem scanFrom_recased {cs cs' : List Char} (h : RecasesAll cs cs') (p : Place) (covered : Nat) :
    List.Forall₂ Piece.Recases (scanFrom p covered cs) (scanFrom p covered cs') := by
  induction h generalizing p covered with
  | nil => exact .nil
  | @cons c c' cs cs' same rest ih =>
      cases covered with
      | succ n =>
          rw [scanFrom, scanFrom, same.after_eq]
          exact ih (p.after c) n
      | zero =>
          have front := frontPiece_recased p (List.Forall₂.cons same rest)
          simp only [scanFrom, same.after_eq, ← front.text.length_eq]
          exact .cons front (ih (p.after c) _)

theorem readableTokens_recased {qs qs' : List Piece} (h : List.Forall₂ Piece.Recases qs qs') :
    ∀ {ts : List Token}, readableTokens qs = .ok ts →
      ∃ ts', readableTokens qs' = .ok ts' ∧ List.Forall₂ Token.Recases ts ts' := by
  induction h with
  | nil =>
      rintro ts ⟨⟩
      exact ⟨[], rfl, .nil⟩
  | @cons q q' qs qs' same _ ih =>
      intro ts readable
      cases same with
      | blank p _ => exact ih readable
      | comment p _ => exact ih readable
      | unreadable p _ => cases readable
      | @token t t' same =>
          rw [readableTokens] at readable ⊢
          cases tokens : readableTokens qs with
          | error u =>
              rw [tokens] at readable
              cases readable
          | ok us =>
              obtain ⟨us', tokens', rest⟩ := ih tokens
              rw [tokens] at readable
              cases readable
              exact ⟨t' :: us', by rw [tokens']; rfl, .cons same rest⟩

/-- A readable text stays readable, with tokens of the same kinds in the same places. -/
theorem tokenize_recased {source source' : List Char} {ts : List Token}
    (h : RecasesAll source source') (tokens : tokenize source = .ok ts) :
    ∃ ts', tokenize source' = .ok ts' ∧ List.Forall₂ Token.Recases ts ts' :=
  readableTokens_recased (scanFrom_recased h .start 0) tokens

end PvsIndex
