import PvsIndex.Token.Scan

/-!
# Cutting a text into pieces

Scanning is a function with a counter for the characters that are already
spoken for.  Here it is a judgement: `Cut p qs rest` says that the pieces `qs`
are what scanning cuts off a text from the place `p` on, when `rest` is left
behind them.  The text is not mentioned, since it is made up of the texts of
the pieces and the rest.  What a piece needs to know about its surroundings is
`Fronts q rest`: it is the piece at the front of its own text with `rest`
behind it.

  * `cut_append`: cutting goes piece by piece;
  * `cut_scanFrom` and `Cut.scanFrom_eq`: the judgement is the function;
  * `FrontsAll.cut`: the same pieces are cut anywhere else, only at other places.

The only thing that matters about shapes is that none takes more than there is.
-/

namespace PvsIndex

/-! ## The order of places -/

namespace Place

/-- One place is on an earlier line, or on the same line in an earlier column. -/
def Before (p q : Place) : Prop :=
  p.line < q.line ∨ p.line = q.line ∧ p.column < q.column

theorem Before.trans {p q r : Place} (first : p.Before q) (second : q.Before r) : p.Before r := by
  unfold Before at *
  omega

theorem before_after (p : Place) (c : Char) : p.Before (p.after c) := by
  unfold Before after
  split
  · exact Or.inl (Nat.lt_succ_self _)
  · exact Or.inr ⟨rfl, Nat.lt_succ_self _⟩

theorem before_afterAll (p : Place) {text : List Char} (h : text ≠ []) :
    p.Before (p.afterAll text) := by
  induction text generalizing p with
  | nil => exact absurd rfl h
  | cons c text ih =>
      cases text with
      | nil => exact p.before_after c
      | cons d text => exact (p.before_after c).trans (ih (p.after c) (List.cons_ne_nil _ _))

end Place

/-! ## No shape takes more than there is -/

namespace Shape

theorem startsWith_length_le {f : Char → Char} : ∀ {word cs : List Char},
    startsWith f word cs = true → word.length ≤ cs.length
  | [], _, _ => Nat.zero_le _
  | _ :: _, [], h => by cases h
  | _ :: word, _ :: cs, h => by
      have rest : startsWith f word cs = true := by
        simp only [startsWith, Bool.and_eq_true] at h
        exact h.2
      exact Nat.succ_le_succ (startsWith_length_le rest)

theorem munchWord_le (f : Char → Char) (word cs : List Char) : munchWord f word cs ≤ cs.length := by
  unfold munchWord
  split
  next found => exact startsWith_length_le found
  next => exact Nat.zero_le _

theorem length_takeWhile_le (f : Char → Bool) (cs : List Char) :
    (cs.takeWhile f).length ≤ cs.length :=
  (List.takeWhile_prefix f).length_le

theorem munchFraction_le (cs : List Char) : munchFraction cs ≤ cs.length := by
  unfold munchFraction
  split
  next cs =>
      have := length_takeWhile_le isFigure cs
      simp only [List.length_cons]
      split <;> omega
  next => exact Nat.zero_le _

theorem munch_le (s : Shape) (cs : List Char) : s.munch cs ≤ cs.length := by
  cases s with
  | name =>
      cases cs with
      | nil => exact Nat.le_refl _
      | cons c cs =>
          have := length_takeWhile_le isNameChar cs
          simp only [munch, munchName, List.length_cons]
          split <;> omega
  | number =>
      have fraction := munchFraction_le (cs.dropWhile isFigure)
      have whole := congrArg List.length (List.takeWhile_append_dropWhile (p := isFigure) (l := cs))
      rw [List.length_append] at whole
      simp only [munch, munchNumber]
      split <;> omega
  | blank => exact length_takeWhile_le isBlank cs
  | string =>
      simp only [munch]
      unfold munchString
      split
      next cs =>
          simp only
          split
          next closing =>
              have room := congrArg List.length closing
              simp only [List.length_drop, List.length_cons] at room ⊢
              omega
          next => exact Nat.zero_le _
      next => exact Nat.zero_le _
  | comment =>
      simp only [munch]
      unfold munchComment
      split
      next cs =>
          have := length_takeWhile_le (· != '\n') cs
          simp only [List.length_cons]
          omega
      next => exact Nat.zero_le _
  | keyword k => exact munchWord_le _ _ _
  | mark m => exact munchWord_le _ _ _

theorem munch_ne_zero {cs : List Char} {s : Shape} (h : first? cs = some s) : s.munch cs ≠ 0 := by
  have := List.find?_some h
  simpa using this

end Shape

/-! ## The piece at the front -/

/-- A piece is at the front of its own text with `rest` behind it: the first shape
that takes anything takes this text, or no shape takes anything. -/
inductive Fronts : Piece → List Char → Prop where
  | shaped {s : Shape} {text rest : List Char} (p : Place) :
      Shape.first? (text ++ rest) = some s → s.munch (text ++ rest) = text.length →
        Fronts (s.piece p text) rest
  | unreadable {c : Char} {rest : List Char} (p : Place) :
      Shape.first? (c :: rest) = none → Fronts (.unreadable ⟨p, c⟩) rest

theorem Fronts.text_ne_nil {q : Piece} {rest : List Char} (h : Fronts q rest) : q.text ≠ [] := by
  cases h with
  | shaped p found taken =>
      have some_taken := Shape.munch_ne_zero found
      rw [Shape.text_piece]
      rintro rfl
      exact some_taken taken
  | unreadable p _ => exact List.cons_ne_nil _ _

/-- The front piece of a text is at the front, with the rest behind it. -/
theorem fronts_frontPiece {p : Place} {c : Char} {cs rest : List Char}
    (split : c :: cs = (frontPiece p c cs).text ++ rest) : Fronts (frontPiece p c cs) rest := by
  unfold frontPiece at split ⊢
  split at split
  next s found =>
      rw [Shape.text_piece] at split
      have fits := s.munch_le (c :: cs)
      refine .shaped p ?_ ?_
      · rw [← split, found]
      · rw [← split, List.length_take, Nat.min_eq_left fits]
  next unfit =>
      obtain rfl : cs = rest := (List.cons.inj split).2
      exact .unreadable p unfit

/-- A piece at the front of a text is its front piece. -/
theorem Fronts.frontPiece_eq {q : Piece} {rest : List Char} (h : Fronts q rest) {c : Char}
    {cs : List Char} (text : q.text ++ rest = c :: cs) : frontPiece q.start c cs = q := by
  cases h with
  | shaped p found taken =>
      rw [Shape.text_piece] at text
      rw [text] at found taken
      rw [frontPiece, found, Shape.start_piece]
      simp only [taken]
      rw [← text, List.take_left]
  | @unreadable d _ p none =>
      obtain ⟨rfl, rfl⟩ : d = c ∧ rest = cs := by simpa [Piece.text] using text
      rw [frontPiece, none]
      rfl

/-! ## Cutting -/

/-- The characters of some pieces. -/
def Piece.allText (qs : List Piece) : List Char :=
  qs.flatMap Piece.text

@[simp] theorem Piece.allText_nil : Piece.allText [] = [] := rfl

@[simp] theorem Piece.allText_cons (q : Piece) (qs : List Piece) :
    Piece.allText (q :: qs) = q.text ++ Piece.allText qs := rfl

@[simp] theorem Piece.allText_append (qs rs : List Piece) :
    Piece.allText (qs ++ rs) = Piece.allText qs ++ Piece.allText rs :=
  List.flatMap_append

/-- From the place `p` on, these pieces are cut off one after the other, and
`rest` is left. -/
def Cut : Place → List Piece → List Char → Prop
  | _, [], _ => True
  | p, q :: qs, rest =>
    q.start = p ∧ Fronts q (Piece.allText qs ++ rest) ∧ Cut (p.afterAll q.text) qs rest

theorem cut_append {rs : List Piece} {rest : List Char} : ∀ {qs : List Piece} {p : Place},
    Cut p (qs ++ rs) rest ↔
      Cut p qs (Piece.allText rs ++ rest) ∧ Cut (p.afterAll (Piece.allText qs)) rs rest
  | [], p => by simp [Cut]
  | q :: qs, p => by
      simp only [List.cons_append, Cut, cut_append, Piece.allText_append, Piece.allText_cons,
        List.append_assoc, Place.afterAll_append, and_assoc]

theorem cut_scanFrom (p : Place) (source : List Char) : Cut p (scanFrom p 0 source) [] := by
  induction size : source.length using Nat.strongRecOn generalizing p source with
  | _ n ih =>
      cases source with
      | nil => trivial
      | cons c cs =>
          obtain ⟨rest, split, pieces⟩ := scanFrom_cons p c cs
          obtain ⟨text, _, front, _⟩ := frontPiece_text p c cs
          have shorter : rest.length < n := by
            rw [← size, split, front, List.length_append, List.length_cons]
            omega
          have behind := scanFrom_text (p.afterAll (frontPiece p c cs).text) rest
          have start : (frontPiece p c cs).start = p := by
            unfold frontPiece
            split
            · exact Shape.start_piece _ _ _
            · rfl
          rw [pieces]
          refine ⟨start, ?_, ih rest.length shorter _ rest rfl⟩
          rw [Piece.allText, behind, List.append_nil]
          exact fronts_frontPiece split

/-- Scanning cuts off what can be cut off, and goes on with the rest. -/
theorem Cut.scanFrom_eq {rest : List Char} : ∀ {qs : List Piece} {p : Place}, Cut p qs rest →
    scanFrom p 0 (Piece.allText qs ++ rest) =
      qs ++ scanFrom (p.afterAll (Piece.allText qs)) 0 rest
  | [], _, _ => rfl
  | q :: qs, p, ⟨start, front, cut⟩ => by
      have nonempty := front.text_ne_nil
      cases text : q.text ++ (Piece.allText qs ++ rest) with
      | nil => exact absurd (List.append_eq_nil_iff.mp text).1 nonempty
      | cons c cs =>
          have here := front.frontPiece_eq text
          rw [start] at here
          obtain ⟨behind, split, pieces⟩ := scanFrom_cons p c cs
          rw [here] at split pieces
          obtain rfl : behind = Piece.allText qs ++ rest :=
            List.append_cancel_left (split.symm.trans text.symm)
          rw [Piece.allText_cons, List.append_assoc, text, pieces, cut.scanFrom_eq,
            Place.afterAll_append, List.cons_append]

theorem cut_scan (source : List Char) : Cut .start (scan source) [] :=
  cut_scanFrom .start source

/-! ## Readable pieces -/

theorem Piece.eq_token_of_token? {q : Piece} {t : Token} (h : q.token? = some t) :
    q = .token t := by
  cases q <;> cases h
  rfl

/-- Does anything begin with the piece? -/
def Piece.isReadable : Piece → Bool
  | unreadable _ => false
  | _ => true

@[simp] theorem Piece.isReadable_token (t : Token) : (token t).isReadable = true := rfl

/-- The tokens of readable pieces are the tokens among them. -/
theorem readableTokens_eq_ok_iff : ∀ {qs : List Piece} {ts : List Token},
    readableTokens qs = .ok ts ↔
      (∀ q ∈ qs, q.isReadable = true) ∧ qs.filterMap Piece.token? = ts
  | [], ts => by simp [readableTokens]
  | .blank _ _ :: qs, ts => by
      simp [readableTokens, Piece.token?, Piece.isReadable, List.filterMap_cons,
        @readableTokens_eq_ok_iff qs ts]
  | .comment _ _ :: qs, ts => by
      simp [readableTokens, Piece.token?, Piece.isReadable, List.filterMap_cons,
        @readableTokens_eq_ok_iff qs ts]
  | .unreadable u :: qs, ts => by simp [readableTokens, Piece.isReadable]
  | .token t :: qs, ts => by
      have rest := @readableTokens_eq_ok_iff qs
      simp only [readableTokens, List.forall_mem_cons, Piece.isReadable_token, true_and,
        List.filterMap_cons, Piece.token?]
      cases tokens : readableTokens qs with
      | error u =>
          have unread : ¬ ∀ q ∈ qs, q.isReadable = true := by
            intro readable
            have ok := rest.mpr ⟨readable, rfl⟩
            rw [tokens] at ok
            cases ok
          simp [Except.map, unread]
      | ok us =>
          obtain ⟨readable, rfl⟩ := rest.mp tokens
          simp only [Except.map, Except.ok.injEq]
          exact ⟨fun same => ⟨readable, same⟩, fun h => h.2⟩

/-! ## Other places -/

/-- The same piece at another place. -/
def Piece.moveTo (p : Place) : Piece → Piece
  | blank _ text => blank p text
  | comment _ text => comment p text
  | token t => token { t with start := p }
  | unreadable u => unreadable { u with place := p }

@[simp] theorem Piece.text_moveTo (p : Place) (q : Piece) : (q.moveTo p).text = q.text := by
  cases q <;> rfl

@[simp] theorem Piece.start_moveTo (p : Place) (q : Piece) : (q.moveTo p).start = p := by
  cases q <;> rfl

theorem Fronts.moveTo {q : Piece} {rest : List Char} (h : Fronts q rest) (p : Place) :
    Fronts (q.moveTo p) rest := by
  cases h with
  | @shaped s text _ old found taken =>
      have moved : (s.piece old text).moveTo p = s.piece p text := by cases s <;> rfl
      rw [moved]
      exact .shaped p found taken
  | unreadable _ unfit => exact .unreadable p unfit

/-- The same pieces, one after the other, from another place on. -/
def Piece.settle (p : Place) : List Piece → List Piece
  | [] => []
  | q :: qs => q.moveTo p :: settle (p.afterAll q.text) qs

@[simp] theorem Piece.allText_settle (p : Place) (qs : List Piece) :
    allText (settle p qs) = allText qs := by
  induction qs generalizing p with
  | nil => rfl
  | cons q qs ih => rw [settle, allText_cons, allText_cons, text_moveTo, ih]

@[simp] theorem Piece.settle_append (p : Place) (qs rs : List Piece) :
    settle p (qs ++ rs) = settle p qs ++ settle (p.afterAll (allText qs)) rs := by
  induction qs generalizing p with
  | nil => rfl
  | cons q qs ih => simp [settle, ih, Place.afterAll_append]

@[simp] theorem Piece.isReadable_moveTo (p : Place) (q : Piece) :
    (q.moveTo p).isReadable = q.isReadable := by
  cases q <;> rfl

theorem Piece.forall_isReadable_settle {qs : List Piece} (h : ∀ q ∈ qs, q.isReadable = true)
    (p : Place) : ∀ q ∈ settle p qs, q.isReadable = true := by
  induction qs generalizing p with
  | nil => exact nofun
  | cons q qs ih =>
      rw [List.forall_mem_cons] at h
      rw [settle, List.forall_mem_cons, isReadable_moveTo]
      exact ⟨h.1, ih h.2 _⟩

/-- A token without its place. -/
def Token.word (t : Token) : Terminal × List Char :=
  (t.terminal, t.text)

theorem Token.terminals_of_words {ts us : List Token} (h : ts.map word = us.map word) :
    ts.map terminal = us.map terminal := by
  have firsts := congrArg (List.map Prod.fst) h
  simpa [word, Function.comp_def] using firsts

/-- The words are the same at another place. -/
theorem Piece.words_settle (p : Place) (qs : List Piece) :
    ((settle p qs).filterMap token?).map Token.word = (qs.filterMap token?).map Token.word := by
  induction qs generalizing p with
  | nil => rfl
  | cons q qs ih =>
      rw [settle]
      cases q with
      | token t => simpa [moveTo, token?, List.filterMap_cons] using ⟨rfl, ih _⟩
      | _ => simpa [moveTo, token?, List.filterMap_cons] using ih _

/-- These pieces are at the front one after the other, wherever that is. -/
def FrontsAll : List Piece → List Char → Prop
  | [], _ => True
  | q :: qs, rest => Fronts q (Piece.allText qs ++ rest) ∧ FrontsAll qs rest

theorem Cut.frontsAll {rest : List Char} : ∀ {qs : List Piece} {p : Place}, Cut p qs rest →
    FrontsAll qs rest
  | [], _, _ => trivial
  | _ :: _, _, ⟨_, front, cut⟩ => ⟨front, cut.frontsAll⟩

/-- They are cut off from any place on. -/
theorem FrontsAll.cut {rest : List Char} : ∀ {qs : List Piece}, FrontsAll qs rest →
    ∀ p : Place, Cut p (Piece.settle p qs) rest
  | [], _, _ => trivial
  | q :: qs, ⟨front, all⟩, p => by
      refine ⟨Piece.start_moveTo p q, ?_, ?_⟩
      · rw [Piece.allText_settle]
        exact front.moveTo p
      · rw [Piece.text_moveTo]
        exact all.cut _

theorem frontsAll_append {rs : List Piece} {rest : List Char} : ∀ {qs : List Piece},
    FrontsAll (qs ++ rs) rest ↔ FrontsAll qs (Piece.allText rs ++ rest) ∧ FrontsAll rs rest
  | [] => by simp [FrontsAll]
  | q :: qs => by
      simp only [List.cons_append, FrontsAll, frontsAll_append, Piece.allText_append,
        List.append_assoc, and_assoc]

theorem FrontsAll.exists_fronts {rest : List Char} : ∀ {qs : List Piece}, FrontsAll qs rest →
    ∀ q ∈ qs, ∃ behind, Fronts q behind
  | [], _ => nofun
  | _ :: _, ⟨front, all⟩ => List.forall_mem_cons.mpr ⟨⟨_, front⟩, all.exists_fronts⟩

/-- A text made up of such pieces is scanned into them. -/
theorem FrontsAll.scan_eq {qs : List Piece} (h : FrontsAll qs []) :
    scan (Piece.allText qs) = Piece.settle .start qs := by
  have scanned := (h.cut .start).scanFrom_eq
  rw [Piece.allText_settle, List.append_nil] at scanned
  rw [scan, scanned]
  exact List.append_nil _

/-- If nothing in it is unreadable, its tokens are theirs. -/
theorem FrontsAll.tokenize_eq {qs : List Piece} (h : FrontsAll qs [])
    (readable : ∀ q ∈ qs, q.isReadable = true) :
    tokenize (Piece.allText qs) = .ok ((Piece.settle .start qs).filterMap Piece.token?) := by
  rw [tokenize, h.scan_eq, readableTokens_eq_ok_iff]
  exact ⟨Piece.forall_isReadable_settle readable _, rfl⟩

end PvsIndex
