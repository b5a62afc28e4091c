import PvsIndex.Declaration.Walk

/-!
# Declarations by the look of the tokens

Which names a text declares can be told from its tokens alone, without a tree.
A formula is a name with a colon and a formula keyword behind it.  A type is a
name in a run of names, with commas between them, that ends before a colon
which is outside all brackets and has `TYPE` or `NONEMPTY_TYPE` behind it.

The declaration reaches from the first name of the run to where the next part
of the theory begins.  That is at `END` or `IMPORTING`, or at a name which
cannot go on with what stands before it: no name comes after a token that
completes an expression or a type.  The one token for which the token before
it counts is `+`, which completes a part in `TYPE+` only.

`declared` goes over the tokens once.  At each token it looks back, at the
tokens before, which are kept with the latest first, and ahead.  The lemmas
say what it finds in three kinds of stretches: those in which nothing is
declared, a run of type names, and a formula name.
-/

namespace PvsIndex

/-! ## Brackets -/

/-- The brackets of the language. -/
inductive Bracket where
  | square | round | curly
deriving DecidableEq

namespace Bracket

def all : List Bracket := [square, round, curly]

/-- What a terminal adds to the number of open brackets. -/
def shift : Bracket → Terminal → Int
  | square, .mark .lsquare => 1
  | square, .mark .rsquare => -1
  | round, .mark .lparen => 1
  | round, .mark .rparen => -1
  | curly, .mark .lbrace => 1
  | curly, .mark .rbrace => -1
  | _, _ => 0

/-- How many brackets are open after these tokens. -/
def level (b : Bracket) : List Token → Int
  | [] => 0
  | t :: ts => b.shift t.terminal + b.level ts

end Bracket

/-- No bracket is open after these tokens. -/
def isOutside (ts : List Token) : Bool :=
  Bracket.all.all fun b => b.level ts = 0

/-! ## Runs of names -/

/-- What a terminal behind a colon says about the names before the colon. -/
def Terminal.announces? : Terminal → Option DeclarationKind
  | .keyword .TYPE => some .type
  | .keyword .NONEMPTY_TYPE => some .type
  | .keyword k => if k ∈ Keyword.formulas then some .formula else none
  | _ => none

/-- How a run of names goes on after a name: a comma and a name, any number of
times. -/
def runAfter : List Token → List Token
  | c :: t :: ts =>
    if c.terminal = .mark .comma ∧ t.terminal = .ident then c :: t :: runAfter ts else []
  | _ => []

/-- The names of a run before a name, with the commas after them.  The tokens
are given with the latest first. -/
def runBefore : List Token → List Token
  | c :: t :: ts =>
    if c.terminal = .mark .comma ∧ t.terminal = .ident then runBefore ts ++ [t, c] else []
  | _ => []

/-- What is behind the run. -/
def afterRun (ts : List Token) : List Token :=
  ts.drop (runAfter ts).length

/-- What is announced by a colon and the terminal behind it. -/
def announced? : List Token → Option DeclarationKind
  | c :: k :: _ => if c.terminal = .mark .colon then k.terminal.announces? else none
  | _ => none

/-- What the token `t` declares, between the tokens before it and after it. -/
def kindAt? (earlier : List Token) (t : Token) (after : List Token) : Option DeclarationKind :=
  if t.terminal = .ident then
    match announced? (afterRun after) with
    | some .formula => if runAfter after = [] then some .formula else none
    | some .type =>
      if isOutside ((runAfter after).reverse ++ t :: earlier) then some .type else none
    | none => none
  else none

/-! ## The rest of a theory part -/

/-- How far a part has come: something has to follow, `TYPE` has just been read, or
the part may be complete. -/
inductive Progress where
  | underWay
  | atType
  | complete
deriving DecidableEq

/-- The terminals that complete an expression or a type. -/
def Terminal.completes : Terminal → Bool
  | .ident | .number | .string => true
  | .mark .rparen | .mark .rsquare | .mark .rbrace => true
  | .keyword .TRUE | .keyword .FALSE | .keyword .ENDIF | .keyword .NONEMPTY_TYPE => true
  | _ => false

namespace Progress

/-- How far a part has come with one terminal more. -/
def after (m : Progress) (t : Terminal) : Progress :=
  if t = .keyword .TYPE then atType
  else if t.completes ∨ t = .mark .plus ∧ m = atType then complete
  else underWay

/-- Does this terminal begin something new? -/
def stopsAt (m : Progress) : Terminal → Bool
  | .keyword .END | .keyword .IMPORTING => true
  | .ident => m ≠ underWay
  | _ => false

end Progress

/-- The tokens up to where the next part of the theory begins. -/
def partAfter (m : Progress) : List Token → List Token
  | [] => []
  | t :: ts => if m.stopsAt t.terminal then [] else t :: partAfter (m.after t.terminal) ts

/-! ## The scan -/

/-- A declared name, with the tokens of its declaration. -/
structure Declared where
  kind : DeclarationKind
  name : Token
  part : List Token

namespace Declared

/-- The text from the first token of the declaration through the last. -/
def text (source : List Char) (d : Declared) : List Char :=
  match d.part.head?, d.part.getLast? with
  | some first, some last => TokenStream.slice ⟨source, []⟩ ⟨first.start, last.stop⟩
  | _, _ => []

def descriptor (source : List Char) (d : Declared) : Descriptor :=
  ⟨d.name.text, d.name.start.line, d.name.start.column - 1, d.text source⟩

def addition (source : List Char) (d : Declared) : Addition :=
  ⟨d.kind, d.descriptor source⟩

end Declared

def declaredAt? (earlier : List Token) (t : Token) (after : List Token) : Option Declared :=
  (kindAt? earlier t after).map fun kind =>
    ⟨kind, t, runBefore earlier ++ t :: partAfter .complete after⟩

/-- The names declared in a row of tokens, after the tokens before it. -/
def declared (earlier : List Token) : List Token → List Declared
  | [] => []
  | t :: ts => (declaredAt? earlier t ts).toList ++ declared (t :: earlier) ts

/-- The index of declared names, one after the other. -/
def Index.ofDeclared (source : List Char) (ds : List Declared) : Index :=
  ds.foldl (fun index d => index.add d.kind (d.descriptor source)) .empty

theorem Index.ofDeclared_eq (source : List Char) (ds : List Declared) :
    ofDeclared source ds = empty.addAll (ds.map (Declared.addition source)) := by
  rw [addAll, List.foldl_map]
  rfl

/-! ## Counting brackets -/

theorem Bracket.level_append (b : Bracket) (xs ys : List Token) :
    b.level (xs ++ ys) = b.level xs + b.level ys := by
  induction xs with
  | nil => simp [level]
  | cons x xs ih => simp only [List.cons_append, level, ih]; omega

theorem Bracket.level_reverse (b : Bracket) (xs : List Token) : b.level xs.reverse = b.level xs := by
  induction xs with
  | nil => rfl
  | cons x xs ih => simp only [List.reverse_cons, level_append, ih, level]; omega

theorem isOutside_iff {ts : List Token} : isOutside ts = true ↔ ∀ b : Bracket, b.level ts = 0 := by
  simp only [isOutside, List.all_eq_true, decide_eq_true_eq]
  constructor
  · intro h b
    exact h b (by cases b <;> decide)
  · exact fun h b _ => h b

/-! ## Stretches that declare nothing -/

/-- Can two terminals stand side by side in a run with its announcement? -/
def Terminal.joins : Terminal → Terminal → Bool
  | .ident, .mark .comma => true
  | .ident, .mark .colon => true
  | .mark .comma, .ident => true
  | .mark .colon, k => k.announces?.isSome
  | _, _ => false

/-- No run goes over from one row of tokens to the next. -/
def Parted (w rest : List Token) : Prop :=
  ∀ l ∈ w.getLast?, ∀ h ∈ rest.head?, l.terminal.joins h.terminal = false

theorem Parted.of_append {a w rest : List Token} (h : Parted (a ++ w) rest) : Parted w rest := by
  intro l hl
  refine h l ?_
  rw [List.getLast?_append, Option.mem_def.mp hl]
  rfl

theorem afterRun_cons_cons (c t : Token) (ts : List Token) :
    afterRun (c :: t :: ts) =
      if c.terminal = .mark .comma ∧ t.terminal = .ident then afterRun ts else c :: t :: ts := by
  by_cases run : c.terminal = .mark .comma ∧ t.terminal = .ident
  · simp [afterRun, runAfter, run]
  · simp [afterRun, runAfter, run]

theorem announced?_cons_cons (c k : Token) (ts : List Token) :
    announced? (c :: k :: ts) =
      if c.terminal = .mark .colon then k.terminal.announces? else none := rfl

/-- What is announced behind a name is announced by a token of the same row, if
no run goes over to the next. -/
theorem exists_announcer {kind : DeclarationKind} {rest : List Token} :
    ∀ {u : List Token} {t : Token}, t.terminal = .ident → Parted (t :: u) rest →
      announced? (afterRun (u ++ rest)) = some kind →
        ∃ x ∈ u, x.terminal.announces? = some kind
  | [], t, ht, parted, h => by
      exfalso
      match rest, parted, h with
      | c :: k :: rest, parted, h =>
          have apart := parted t rfl c rfl
          rw [ht] at apart
          have no_comma : c.terminal ≠ .mark .comma := by
            intro hc
            rw [hc] at apart
            cases apart
          have no_colon : c.terminal ≠ .mark .colon := by
            intro hc
            rw [hc] at apart
            cases apart
          simp [afterRun_cons_cons, announced?_cons_cons, no_comma, no_colon] at h
  | [c], t, _, parted, h => by
      exfalso
      match rest, parted, h with
      | k :: rest, parted, h =>
          have apart := parted c rfl k rfl
          rw [List.singleton_append, afterRun_cons_cons] at h
          split at h
          next run =>
              rw [run.1, run.2] at apart
              cases apart
          next =>
              rw [announced?_cons_cons] at h
              split at h
              next colon =>
                  rw [colon] at apart
                  simp [Terminal.joins, h] at apart
              next => cases h
  | c :: s :: u, t, ht, parted, h => by
      rw [List.cons_append, List.cons_append, afterRun_cons_cons] at h
      split at h
      next run =>
          have parted' : Parted (s :: u) rest :=
            Parted.of_append (a := [t, c]) parted
          obtain ⟨x, hx, announces⟩ := exists_announcer run.2 parted' h
          exact ⟨x, List.mem_cons_of_mem _ (List.mem_cons_of_mem _ hx), announces⟩
      next =>
          rw [announced?_cons_cons] at h
          split at h
          next => exact ⟨s, by simp, h⟩
          next => cases h

theorem declared_append_of_none {rest : List Token} :
    ∀ {w earlier : List Token},
      (∀ a t b, w = a ++ t :: b → kindAt? (a.reverse ++ earlier) t (b ++ rest) = none) →
        declared earlier (w ++ rest) = declared (w.reverse ++ earlier) rest
  | [], _, _ => rfl
  | t :: w, earlier, h => by
      have here : declaredAt? earlier t (w ++ rest) = none := by
        have none_here : kindAt? earlier t (w ++ rest) = none := h [] t w rfl
        rw [declaredAt?, none_here]
        rfl
      rw [List.cons_append, declared, here, Option.toList_none, List.nil_append,
        declared_append_of_none, List.reverse_cons, List.append_assoc, List.singleton_append]
      intro a u b split
      have there := h (t :: a) u b (by rw [split]; rfl)
      simpa using there

theorem kindAt?_of_not_ident {t : Token} (ht : t.terminal ≠ .ident) (earlier after : List Token) :
    kindAt? earlier t after = none := by
  rw [kindAt?, if_neg ht]

theorem declared_cons_of_not_ident {t : Token} (ht : t.terminal ≠ .ident)
    (earlier after : List Token) :
    declared earlier (t :: after) = declared (t :: earlier) after := by
  rw [declared, declaredAt?, kindAt?_of_not_ident ht]
  rfl

/-- Nothing is declared by tokens that announce nothing. -/
theorem declared_quiet {w rest : List Token} (earlier : List Token)
    (quiet : ∀ x ∈ w, x.terminal.announces? = none) (parted : Parted w rest) :
    declared earlier (w ++ rest) = declared (w.reverse ++ earlier) rest := by
  refine declared_append_of_none ?_
  rintro a t b rfl
  by_cases ht : t.terminal = .ident
  · have unannounced : announced? (afterRun (b ++ rest)) = none := by
      cases h : announced? (afterRun (b ++ rest)) with
      | none => rfl
      | some kind =>
          obtain ⟨x, hx, announces⟩ := exists_announcer ht parted.of_append h
          have silent := quiet x (by simp [hx])
          rw [announces] at silent
          cases silent
    rw [kindAt?, if_pos ht, unannounced]
  · exact kindAt?_of_not_ident ht _ _

/-! ## Runs of names -/

/-- Names with a comma before each. -/
inductive MoreNames : List Token → Prop where
  | nil : MoreNames []
  | cons {c t : Token} {ts : List Token} : c.terminal = .mark .comma → t.terminal = .ident →
      MoreNames ts → MoreNames (c :: t :: ts)

theorem MoreNames.level {ts : List Token} (h : MoreNames ts) (b : Bracket) : b.level ts = 0 := by
  induction h with
  | nil => rfl
  | cons hc ht _ ih =>
      simp only [Bracket.level, hc, ht, ih]
      cases b <;> rfl

theorem MoreNames.runAfter_append {ts rest : List Token} (h : MoreNames ts)
    (apart : ∀ c ∈ rest.head?, c.terminal ≠ .mark .comma) : runAfter (ts ++ rest) = ts := by
  induction h with
  | nil =>
      match rest, apart with
      | [], _ => rfl
      | [_], _ => rfl
      | c :: t :: rest, apart =>
          have no_comma := apart c rfl
          simp [runAfter, no_comma]
  | cons hc ht _ ih => simp [runAfter, hc, ht, ih]

theorem moreNames_runAfter (ts : List Token) : MoreNames (runAfter ts) := by
  fun_induction runAfter ts with
  | case1 c t ts run ih => exact .cons run.1 run.2 ih
  | case2 => exact .nil
  | case3 => exact .nil

/-- A run does not change the number of open brackets. -/
theorem isOutside_run {t : Token} (ht : t.terminal = .ident) (earlier after : List Token) :
    isOutside ((runAfter after).reverse ++ t :: earlier) = isOutside earlier := by
  have same : ∀ b : Bracket,
      b.level ((runAfter after).reverse ++ t :: earlier) = b.level earlier := by
    intro b
    have at_name : b.shift t.terminal = 0 := by
      rw [ht]
      cases b <;> rfl
    rw [Bracket.level_append, Bracket.level_reverse, (moreNames_runAfter after).level, Bracket.level,
      at_name]
    omega
  rw [Bool.eq_iff_iff, isOutside_iff, isOutside_iff]
  simp only [same]

/-- Nothing is declared inside brackets, where no formula is announced. -/
theorem declared_inside {w rest : List Token} (earlier : List Token)
    (no_formula : ∀ x ∈ w, x.terminal.announces? ≠ some .formula) (parted : Parted w rest)
    (inside : ∀ a t b, w = a ++ t :: b → t.terminal = .ident →
      isOutside (a.reverse ++ earlier) = false) :
    declared earlier (w ++ rest) = declared (w.reverse ++ earlier) rest := by
  refine declared_append_of_none ?_
  rintro a t b rfl
  by_cases ht : t.terminal = .ident
  · rw [kindAt?, if_pos ht]
    split
    next formula =>
        obtain ⟨x, hx, announces⟩ := exists_announcer ht parted.of_append formula
        exact absurd announces (no_formula x (by simp [hx]))
    next => simp [isOutside_run ht, inside a t b rfl ht]
    next => rfl
  · exact kindAt?_of_not_ident ht _ _

/-! ## Declarations -/

/-- The names in a row of tokens. -/
def names (ts : List Token) : List Token :=
  ts.filter fun t => t.terminal = .ident

theorem partAfter_comma {c t : Token} (hc : c.terminal = .mark .comma) (ht : t.terminal = .ident)
    (ts : List Token) :
    partAfter .complete (c :: t :: ts) = c :: t :: partAfter .complete ts := by
  simp [partAfter, Progress.stopsAt, Progress.after, Terminal.completes, hc, ht]

theorem kindAt?_type {t : Token} {more rest earlier : List Token} (ht : t.terminal = .ident)
    (hm : MoreNames more) (outside : isOutside earlier = true)
    (type : announced? rest = some .type) :
    kindAt? earlier t (more ++ rest) = some .type := by
  have apart : ∀ c ∈ rest.head?, c.terminal ≠ .mark .comma := by
    match rest, type with
    | c :: k :: rest, type =>
        rintro c ⟨⟩ hc
        simp [announced?, hc] at type
  have run := hm.runAfter_append apart
  have behind : afterRun (more ++ rest) = rest := by
    rw [afterRun, run, List.drop_left]
  rw [kindAt?, if_pos ht, behind, type]
  simp [isOutside_run ht, outside]

/-- Each name of a run is declared, with the whole declaration as its part. -/
theorem declared_run {earlier rest : List Token} (type : announced? rest = some .type)
    {part : List Token} {more : List Token} (hm : MoreNames more) :
    ∀ {t : Token} {before : List Token}, t.terminal = .ident →
      runBefore (before.reverse ++ earlier) = before →
      isOutside (before.reverse ++ earlier) = true →
      before ++ t :: partAfter .complete (more ++ rest) = part →
        declared (before.reverse ++ earlier) (t :: more ++ rest) =
          (names (t :: more)).map (⟨.type, ·, part⟩) ++
            declared ((t :: more).reverse ++ (before.reverse ++ earlier)) rest := by
  induction hm with
  | nil =>
      intro t before ht run outside same
      have here := kindAt?_type ht .nil outside type
      simp only [List.nil_append] at here same
      simp [declared, declaredAt?, here, run, same, names, ht]
  | @cons c u more hc hu hm ih =>
      intro t before ht run outside same
      have here := kindAt?_type ht (.cons hc hu hm) outside type
      have between : c.terminal ≠ .ident := by
        rw [hc]
        nofun
      have reversed : (before ++ [t, c]).reverse ++ earlier =
          c :: t :: (before.reverse ++ earlier) := by
        simp
      have run' : runBefore ((before ++ [t, c]).reverse ++ earlier) = before ++ [t, c] := by
        rw [reversed, runBefore, if_pos ⟨hc, ht⟩, run]
      have outside' : isOutside ((before ++ [t, c]).reverse ++ earlier) = true := by
        rw [isOutside_iff] at outside ⊢
        intro b
        have at_names := (MoreNames.cons hc ht .nil).level b
        have sum := b.level_append [c, t] (before.reverse ++ earlier)
        rw [reversed, show c :: t :: (before.reverse ++ earlier) =
          [c, t] ++ (before.reverse ++ earlier) from rfl, sum, at_names, outside b]
        rfl
      have same' : (before ++ [t, c]) ++ u :: partAfter .complete (more ++ rest) = part := by
        rw [← same, List.cons_append, List.cons_append, partAfter_comma hc hu]
        simp
      have others := ih hu run' outside' same'
      rw [reversed] at others
      simp only [List.cons_append] at here others same ⊢
      rw [declared, declaredAt?, here, declared_cons_of_not_ident between, others, run, same]
      simp [names, ht, between]

/-- A formula name is declared, with the whole declaration as its part. -/
theorem declared_formula_name {t c k : Token} {earlier rest part : List Token}
    (ht : t.terminal = .ident) (hc : c.terminal = .mark .colon)
    (hk : k.terminal.announces? = some .formula) (run : runBefore earlier = [])
    (same : t :: partAfter .complete (c :: k :: rest) = part) :
    declared earlier (t :: c :: k :: rest) =
      ⟨.formula, t, part⟩ :: declared (t :: earlier) (c :: k :: rest) := by
  have no_run : runAfter (c :: k :: rest) = [] := by
    rw [runAfter, if_neg]
    rw [hc]
    nofun
  have here : kindAt? earlier t (c :: k :: rest) = some .formula := by
    rw [kindAt?, if_pos ht, afterRun, no_run, List.length_nil, List.drop_zero,
      announced?_cons_cons, if_pos hc, hk]
    rfl
  rw [declared, declaredAt?, here, run]
  simp only [Option.map_some, Option.toList_some, List.nil_append, same, List.singleton_append]

/-! ## Where a part stops -/

namespace Progress

/-- The progress after several tokens. -/
def afterAll (m : Progress) (w : List Token) : Progress :=
  w.foldl (fun m t => m.after t.terminal) m

@[simp] theorem afterAll_nil (m : Progress) : m.afterAll [] = m := rfl

@[simp] theorem afterAll_cons (m : Progress) (t : Token) (w : List Token) :
    m.afterAll (t :: w) = (m.after t.terminal).afterAll w := rfl

theorem afterAll_append (m : Progress) (w v : List Token) :
    m.afterAll (w ++ v) = (m.afterAll w).afterAll v :=
  List.foldl_append

/-- No token of the row begins something new. -/
def Unbroken : Progress → List Token → Prop
  | _, [] => True
  | m, t :: ts => m.stopsAt t.terminal = false ∧ Unbroken (m.after t.terminal) ts

theorem Unbroken.append {m : Progress} {w v : List Token} (hw : m.Unbroken w)
    (hv : (m.afterAll w).Unbroken v) : m.Unbroken (w ++ v) := by
  induction w generalizing m with
  | nil => exact hv
  | cons t w ih => exact ⟨hw.1, ih hw.2 hv⟩

/-- A part that is complete stops before a token that begins something new. -/
theorem Unbroken.partAfter_eq {m : Progress} {w rest : List Token} (hw : m.Unbroken w)
    (stop : ∀ t ∈ rest.head?, (m.afterAll w).stopsAt t.terminal = true) :
    partAfter m (w ++ rest) = w := by
  induction w generalizing m with
  | nil =>
      cases rest with
      | nil => rfl
      | cons t rest =>
          have stopped : m.stopsAt t.terminal = true := stop t rfl
          rw [List.nil_append, partAfter, if_pos stopped]
  | cons t w ih =>
      rw [List.cons_append, partAfter, hw.1, ih hw.2 stop]
      rfl

end Progress

/-- A part goes on over further names. -/
theorem MoreNames.unbroken {ts : List Token} (h : MoreNames ts) :
    Progress.complete.Unbroken ts ∧ Progress.complete.afterAll ts = .complete := by
  induction h with
  | nil => exact ⟨trivial, rfl⟩
  | cons hc ht _ ih =>
      simp [Progress.Unbroken, Progress.stopsAt, Progress.after, Terminal.completes, hc, ht, ih]

end PvsIndex
