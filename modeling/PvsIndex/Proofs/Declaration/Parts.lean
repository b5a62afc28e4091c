import PvsIndex.Proofs.Declaration.Found

/-!
# The walk and the scan agree

The walk looks at the nodes of a tree, the scan at tokens.  `Agrees e w parts ds`
says that they find the same names `ds`: the walk in the trees `parts`, and the
scan in the tokens `w`, wherever these tokens stand in a text at the level of
theory parts.  What comes before has to be outside of all brackets and must not
end with a comma; what comes after has to begin something new.  It also says
that the scan cuts out whole parts: in a row admitted by `e`, the tokens of a
declaration are a theory part, and any other theory part could stand there
instead.  They are a declaration of the kind that was found, and what was found
is one of its names (`Declared.Written`).

Agreement is kept when rows are put side by side (`Agrees.append`), so it is
enough to have it for one theory part and for the frame of a theory.  This is
where the cases are: a type declaration, a formula declaration, and everything
else, in which both find nothing.
-/

namespace PvsIndex

/-! ## Theory parts in a row of tokens -/

/-- A definition admits these tokens. -/
def Ebnf.Admits (e : Ebnf) (w : List Token) : Prop :=
  ∃ parts, Reads e w parts

/-- A row of tokens is a theory part. -/
def IsPart (w : List Token) : Prop :=
  Ebnf.Admits (.symbol (.phrase .theoryPart)) w

/-- In a row admitted by `e`, this is one of the theory parts: every other one
could stand in its place. -/
def PartIn (e : Ebnf) (part w : List Token) : Prop :=
  IsPart part ∧ ∃ before after, w = before ++ part ++ after ∧
    ∀ other, IsPart other → e.Admits (before ++ other ++ after)

theorem PartIn.self {part : List Token} (h : IsPart part) :
    PartIn (.symbol (.phrase .theoryPart)) part part := by
  refine ⟨h, [], [], by simp, ?_⟩
  intro other ho
  rw [List.nil_append, List.append_nil]
  exact ho

theorem PartIn.within {e f : Ebnf} {part w : List Token} (h : PartIn e part w)
    (x y : List Token) (fits : ∀ v, e.Admits v → f.Admits (x ++ v ++ y)) :
    PartIn f part (x ++ w ++ y) := by
  obtain ⟨hp, before, after, rfl, swap⟩ := h
  refine ⟨hp, x ++ before, after ++ y, by simp, ?_⟩
  intro other ho
  have swapped := fits _ (swap other ho)
  simpa using swapped

theorem PartIn.subset {e : Ebnf} {part w : List Token} (h : PartIn e part w) : part ⊆ w := by
  obtain ⟨_, before, after, rfl, _⟩ := h
  intro t ht
  simp [ht]

/-! ## Declarations as phrases -/

/-- The phrase for a kind of declaration. -/
def DeclarationKind.phrase : DeclarationKind → Nonterminal
  | type => .typeDeclaration
  | formula => .formulaDeclaration

/-- The names in front of the first colon. -/
def declaredNames (part : List Token) : List Token :=
  names (part.takeWhile fun t => t.terminal ≠ .mark .colon)

/-- What a declaration declares. -/
def declarations (kind : DeclarationKind) (part : List Token) : List Declared :=
  (declaredNames part).map (⟨kind, ·, part⟩)

/-- The part of a declared name is a declaration of its kind, and the name is
one of those that it declares. -/
structure Declared.Written (d : Declared) : Prop where
  derives : ∃ trees, Derives (.phrase d.kind.phrase) d.part trees
  name_mem : d.name ∈ declaredNames d.part

theorem written_of_mem_declarations (kind : DeclarationKind) {part : List Token}
    {parts : List ParseTree} (h : Derives (.phrase kind.phrase) part parts) {d : Declared}
    (hd : d ∈ declarations kind part) : d.Written := by
  obtain ⟨n, hn, rfl⟩ := List.mem_map.mp hd
  exact ⟨⟨parts, h⟩, hn⟩

/-- The names in front of the colon are those of the run. -/
theorem declaredNames_eq {more : List Token} (hm : MoreNames more) {t c : Token}
    (ht : t.terminal = .ident) (hc : c.terminal = .mark .colon) (rest : List Token) :
    declaredNames (t :: more ++ c :: rest) = names (t :: more) := by
  have no_colon : ∀ x ∈ t :: more, decide (x.terminal ≠ .mark .colon) = true := by
    rw [List.forall_mem_cons]
    refine ⟨by simp [ht], ?_⟩
    induction hm with
    | nil => exact nofun
    | cons hc ht _ ih => simpa [hc, ht] using ih
  rw [declaredNames, List.takeWhile_append_of_pos no_colon,
    List.takeWhile_cons_of_neg (by simp [hc]), List.append_nil]

/-! ## Agreement -/

/-- A theory part may begin after these tokens, which have the latest first. -/
structure PartStart (earlier : List Token) : Prop where
  outside : isOutside earlier = true
  no_comma : ∀ c ∈ earlier.head?, c.terminal ≠ .mark .comma

theorem PartStart.runBefore_eq_nil {earlier : List Token} (h : PartStart earlier) :
    runBefore earlier = [] := by
  match earlier, h with
  | [], _ => rfl
  | [_], _ => rfl
  | c :: t :: ts, h =>
      have no_comma := h.no_comma c rfl
      simp [runBefore, no_comma]

/-- A theory part may end before these tokens. -/
def PartEnd (rest : List Token) : Prop :=
  ∀ t ∈ rest.head?, Symbol.opensPart (.terminal t.terminal) = true

theorem PartEnd.stopsAt {rest : List Token} (h : PartEnd rest) {m : Progress}
    (hm : m ≠ .underWay) : ∀ t ∈ rest.head?, m.stopsAt t.terminal = true := by
  intro t ht
  have opens : t.terminal = .ident ∨ t.terminal = .keyword .IMPORTING ∨
      t.terminal = .keyword .END := by
    simpa [Symbol.opensPart] using h t ht
  rcases opens with h | h | h
  · simpa [h, Progress.stopsAt] using hm
  · rw [h]
    rfl
  · rw [h]
    rfl

theorem PartEnd.parted {w rest : List Token} (h : PartEnd rest)
    (hw : ∀ t ∈ w.getLast?, t.terminal ≠ .mark .comma) : Parted w rest := by
  intro l hl u hu
  have opens : u.terminal = .ident ∨ u.terminal = .keyword .IMPORTING ∨
      u.terminal = .keyword .END := by
    simpa [Symbol.opensPart] using h u hu
  have no_comma := hw l hl
  unfold Terminal.joins
  split
  next same => simp [same] at opens
  next same => simp [same] at opens
  next same _ => exact absurd same no_comma
  next =>
      rcases opens with h | h | h
      · rw [h]
        rfl
      · rw [h]
        rfl
      · rw [h]
        rfl
  next => rfl

/-- The walk and the scan find the names `ds`, the one in the trees and the
other in their tokens. -/
structure Agrees (e : Ebnf) (w : List Token) (parts : List ParseTree) (ds : List Declared) :
    Prop where
  walk : ∀ {ts : TokenStream} {number : Token → Int}, ts.Locates number w →
    found ts number parts = ds.map fun d => .ok (d.addition ts.source)
  scan : ∀ {earlier rest : List Token}, PartStart earlier → PartEnd rest →
    declared earlier (w ++ rest) = ds ++ declared (w.reverse ++ earlier) rest
  start : ∀ {earlier : List Token}, PartStart earlier → PartStart (w.reverse ++ earlier)
  stop : ∀ {rest : List Token}, PartEnd rest → PartEnd (w ++ rest)
  whole : ∀ d ∈ ds, PartIn e d.part w
  written : ∀ d ∈ ds, d.Written

namespace Agrees

theorem nil (e : Ebnf) : Agrees e [] [] [] where
  walk := fun _ => rfl
  scan := fun _ _ => rfl
  start := fun h => h
  stop := fun h => h
  whole := nofun
  written := nofun

/-- Two rows that agree and that make up a row together agree as that row. -/
theorem append {e₁ e₂ f : Ebnf} {w v : List Token} {parts more : List ParseTree}
    {ds es : List Declared} (hw : Agrees e₁ w parts ds) (hv : Agrees e₂ v more es)
    (aw : e₁.Admits w) (av : e₂.Admits v)
    (join : ∀ x y, e₁.Admits x → e₂.Admits y → f.Admits (x ++ y)) :
    Agrees f (w ++ v) (parts ++ more) (ds ++ es) where
  walk := by
    intro ts number located
    rw [found_append, hw.walk (located.mono (List.subset_append_left _ _)),
      hv.walk (located.mono (List.subset_append_right _ _)), List.map_append]
  scan := by
    intro earlier rest start stop
    rw [List.append_assoc, hw.scan start (hv.stop stop), hv.scan (hw.start start) stop,
      List.reverse_append, List.append_assoc, List.append_assoc]
  start := by
    intro earlier start
    rw [List.reverse_append, List.append_assoc]
    exact hv.start (hw.start start)
  stop := by
    intro rest stop
    rw [List.append_assoc]
    exact hw.stop (hv.stop stop)
  whole := by
    intro d hd
    rcases List.mem_append.mp hd with hd | hd
    · exact (hw.whole d hd).within [] v fun x hx => join x v hx av
    · have right := (hv.whole d hd).within w [] fun y hy => by
        rw [List.append_nil]
        exact join w y aw hy
      rwa [List.append_nil] at right
  written := by
    intro d hd
    rcases List.mem_append.mp hd with hd | hd
    · exact hw.written d hd
    · exact hv.written d hd

/-- In a row that stands alone, the scan finds these names. -/
theorem declared_eq {e : Ebnf} {w : List Token} {parts : List ParseTree} {ds : List Declared}
    (h : Agrees e w parts ds) : declared [] w = ds := by
  have all := @h.scan [] [] ⟨rfl, nofun⟩ nofun
  simpa [declared] using all

end Agrees

theorem Derives.partStart {n : Nonterminal} {w : List Token} {parts : List ParseTree}
    (h : Derives (.phrase n) w parts) {earlier : List Token} (start : PartStart earlier) :
    PartStart (w.reverse ++ earlier) where
  outside := h.stays_outside start.outside
  no_comma := by
    intro c hc
    have nonempty : w.reverse ≠ [] := by simpa using h.ne_nil
    rw [List.head?_append_of_ne_nil _ nonempty, List.head?_reverse] at hc
    exact h.last_ne_comma c hc

theorem Derives.partEnd {n : Nonterminal} {w : List Token} {parts : List ParseTree}
    (h : Derives (.phrase n) w parts) (hn : Symbol.opensPart (.phrase n) = true)
    {rest : List Token} : PartEnd (w ++ rest) := by
  intro t ht
  rw [List.head?_append_of_ne_nil _ h.ne_nil] at ht
  exact h.head_class Symbol.opensPart_closed hn t ht

/-- In a part that announces nothing, both find nothing. -/
theorem Derives.agrees_silent {n : Nonterminal} {w : List Token} {parts : List ParseTree}
    (h : Derives (.phrase n) w parts) (silent : Symbol.isSilent (.phrase n) = true)
    (plain : Symbol.isPlain (.phrase n) = true) (opens : Symbol.opensPart (.phrase n) = true) :
    Agrees (.symbol (.phrase .theoryPart)) w parts [] where
  walk := fun _ => h.found_plain _ _ plain
  scan := fun _ stop => declared_quiet _ (h.silent silent) (stop.parted h.last_ne_comma)
  start := h.partStart
  stop := fun _ => h.partEnd opens
  whole := nofun
  written := nofun

/-! ## Type declarations -/

/-- A type kind is `TYPE`, `TYPE+` or `NONEMPTY_TYPE`, and a part may be
complete with it. -/
theorem Derives.of_typeKind {w : List Token} {parts : List ParseTree}
    (h : Derives (.phrase .typeKind) w parts) :
    ∃ k tail, w = k :: tail ∧ k.terminal.announces? = some .type ∧
      (∀ x ∈ tail, x.terminal.announces? = none) ∧
      Progress.underWay.Unbroken w ∧ Progress.underWay.afterAll w ≠ .underWay := by
  cases h with
  | phrase hb all =>
      rcases hb with _ | ⟨_, _ | ⟨_, _ | ⟨_, hb⟩⟩⟩
      · cases all with
        | cons type all =>
            obtain ⟨k, hk, rfl, rfl⟩ := type.of_terminal
            obtain ⟨p, hp, rfl, rfl⟩ := all.of_single.of_terminal
            refine ⟨k, [p], rfl, by rw [hk]; rfl, ?_, ?_, ?_⟩
            · intro x hx
              obtain rfl := List.mem_singleton.mp hx
              rw [hp]
              rfl
            · simp [Progress.Unbroken, Progress.stopsAt, hk, hp]
            · simp [Progress.after, hk, hp]
      · obtain ⟨k, hk, rfl, rfl⟩ := all.of_single.of_terminal
        refine ⟨k, [], rfl, by rw [hk]; rfl, by simp, ?_, ?_⟩
        · simp [Progress.Unbroken, Progress.stopsAt, hk]
        · simp [Progress.after, hk]
      · obtain ⟨k, hk, rfl, rfl⟩ := all.of_single.of_terminal
        refine ⟨k, [], rfl, by rw [hk]; rfl, by simp, ?_, ?_⟩
        · simp [Progress.Unbroken, Progress.stopsAt, hk]
        · simp [Progress.after, hk, Terminal.completes]
      · cases hb

/-- A part goes on with a type definition, and may be complete with it. -/
theorem Derives.of_typeDefinition {w : List Token} {parts : List ParseTree}
    (h : Derives (.phrase .typeDefinition) w parts) (m : Progress) :
    m.Unbroken w ∧ m.afterAll w ≠ .underWay := by
  have after_sign : ∀ {e : Terminal} {v : List Token} {more : List ParseTree},
      (e = .mark .equal ∨ e = .keyword .FROM) → DerivesAll [.terminal e, .phrase .typeExpr] v more →
        m.Unbroken v ∧ m.afterAll v ≠ .underWay := by
    intro e v more he all
    cases all with
    | cons sign all =>
        obtain ⟨t, ht, rfl, rfl⟩ := sign.of_terminal
        obtain ⟨unbroken, final⟩ := all.of_single.unbroken rfl .underWay (by decide)
          fun complete => by cases complete
        have sign : m.stopsAt t.terminal = false ∧ m.after t.terminal = .underWay := by
          rw [ht]
          rcases he with rfl | rfl
          · simp [Progress.stopsAt, Progress.after, Terminal.completes]
          · simp [Progress.stopsAt, Progress.after, Terminal.completes]
        rw [List.singleton_append, Progress.afterAll_cons, sign.2, final]
        exact ⟨⟨sign.1, sign.2 ▸ unbroken⟩, by decide⟩
  cases h with
  | phrase hb all =>
      rcases hb with _ | ⟨_, _ | ⟨_, hb⟩⟩
      · exact after_sign (Or.inl rfl) all
      · exact after_sign (Or.inr rfl) all
      · cases hb

theorem Reads.of_opt_typeDefinition {w : List Token} {parts : List ParseTree}
    (h : Reads (.opt (.symbol (.phrase .typeDefinition))) w parts) :
    (∀ x ∈ w, x.terminal.announces? = .none) ∧ (∀ ts number, found ts number parts = []) ∧
      ∀ m : Progress, m ≠ .underWay → m.Unbroken w ∧ m.afterAll w ≠ .underWay := by
  cases h with
  | absent => exact ⟨nofun, fun _ _ => rfl, fun m hm => ⟨trivial, hm⟩⟩
  | present reading =>
      have derived := reads_iff_derives.mp reading
      exact ⟨derived.silent rfl, fun ts number => derived.found_plain ts number rfl,
        fun m _ => derived.of_typeDefinition m⟩

theorem Derives.isPart {n : Nonterminal} {w : List Token} {parts : List ParseTree}
    (h : Derives (.phrase n) w parts) (hn : [.phrase n] ∈ Nonterminal.theoryPart.bodies) :
    IsPart w :=
  ⟨_, reads_iff_derives.mpr (.phrase hn (.single h))⟩

/-- Where a declaration stops: it is unbroken behind its colon, and may be
complete. -/
theorem partAfter_declaration {c : Token} {more body rest : List Token} (hm : MoreNames more)
    (hc : c.terminal = .mark .colon) (unbroken : Progress.underWay.Unbroken body)
    (final : Progress.underWay.afterAll body ≠ .underWay) (stop : PartEnd rest) :
    partAfter .complete (more ++ c :: body ++ rest) = more ++ c :: body := by
  obtain ⟨names_go_on, names_final⟩ := hm.unbroken
  have colon : Progress.complete.stopsAt c.terminal = false ∧
      Progress.complete.after c.terminal = .underWay := by
    rw [hc]
    exact ⟨rfl, rfl⟩
  have whole : Progress.complete.Unbroken (more ++ c :: body) := by
    refine names_go_on.append ?_
    rw [names_final]
    exact ⟨colon.1, colon.2 ▸ unbroken⟩
  refine whole.partAfter_eq (stop.stopsAt ?_)
  rw [Progress.afterAll_append, names_final, Progress.afterAll_cons, colon.2]
  exact final

/-- What the scan has to know about a declaration behind its names. -/
structure DeclarationBody (kind : DeclarationKind) (c k : Token) (tail : List Token) : Prop where
  colon : c.terminal = .mark .colon
  announces : k.terminal.announces? = some kind
  quiet : ∀ x ∈ tail, x.terminal.announces? = none
  unbroken : Progress.underWay.Unbroken (k :: tail)
  final : Progress.underWay.afterAll (k :: tail) ≠ .underWay
  last : ∀ x ∈ tail.getLast?, x.terminal ≠ .mark .comma

section Scan

variable {kind : DeclarationKind} {t c k : Token} {more tail earlier rest : List Token}

/-- Behind the names nothing is declared. -/
theorem DeclarationBody.declared_eq (h : DeclarationBody kind c k tail) (stop : PartEnd rest) :
    declared earlier (c :: k :: (tail ++ rest)) =
      declared ((c :: k :: tail).reverse ++ earlier) rest := by
  have no_name : c.terminal ≠ .ident := by
    rw [h.colon]
    nofun
  have no_name' : k.terminal ≠ .ident := by
    intro hk
    have announces := h.announces
    rw [hk] at announces
    cases announces
  rw [declared_cons_of_not_ident no_name, declared_cons_of_not_ident no_name',
    declared_quiet _ h.quiet (stop.parted h.last)]
  simp

/-- The scan takes a type declaration for what it is. -/
theorem declared_type (ht : t.terminal = .ident) (hm : MoreNames more)
    (h : DeclarationBody .type c k tail) (start : PartStart earlier) (stop : PartEnd rest) :
    declared earlier (t :: more ++ c :: k :: tail ++ rest) =
      (names (t :: more)).map (⟨.type, ·, t :: more ++ c :: k :: tail⟩) ++
        declared ((t :: more ++ c :: k :: tail).reverse ++ earlier) rest := by
  have type : announced? (c :: k :: (tail ++ rest)) = some .type := by
    rw [announced?_cons_cons, if_pos h.colon, h.announces]
  have part : t :: partAfter .complete (more ++ c :: k :: (tail ++ rest)) =
      t :: more ++ c :: k :: tail := by
    have stops := partAfter_declaration hm h.colon h.unbroken h.final stop
    rw [List.append_assoc] at stops
    exact congrArg (t :: ·) stops
  have run := @declared_run earlier _ type _ more hm t [] ht start.runBefore_eq_nil start.outside part
  simp only [List.reverse_nil, List.nil_append, h.declared_eq stop] at run
  simpa using run

/-- The scan takes a formula declaration for what it is. -/
theorem declared_formula (ht : t.terminal = .ident) (h : DeclarationBody .formula c k tail)
    (start : PartStart earlier) (stop : PartEnd rest) :
    declared earlier (t :: c :: k :: tail ++ rest) =
      ⟨.formula, t, t :: c :: k :: tail⟩ ::
        declared ((t :: c :: k :: tail).reverse ++ earlier) rest := by
  have part : t :: partAfter .complete (c :: k :: (tail ++ rest)) = t :: c :: k :: tail :=
    congrArg (t :: ·) (partAfter_declaration .nil h.colon h.unbroken h.final stop)
  have name := declared_formula_name ht h.colon h.announces start.runBefore_eq_nil part
  simp only [List.cons_append]
  rw [name, h.declared_eq stop]
  simp

end Scan

/-! ## Declarations agree -/

/-- The names of a type declaration are those of its run. -/
theorem Reads.agrees_type {w : List Token} {parts : List ParseTree}
    (h : Reads (.symbol (.phrase .typeDeclaration)) w parts) :
    Agrees (.symbol (.phrase .theoryPart)) w parts (declarations .type w) := by
  have derived := reads_iff_derives.mp h
  obtain ⟨children, rfl, row⟩ := h.of_phrase
  obtain ⟨_, _, _, _, rfl, rfl, name, row₁⟩ := row.of_row.uncons
  obtain ⟨more, _, _, _, rfl, rfl, others, row₂⟩ := row₁.uncons
  obtain ⟨_, _, _, _, rfl, rfl, colon, row₃⟩ := row₂.uncons
  obtain ⟨_, defined, kindParts, definition, rfl, rfl, kind, row₄⟩ := row₃.uncons
  obtain ⟨t, ht, rfl, rfl⟩ := name.of_identifier
  obtain ⟨hm, rfl⟩ := others.of_moreNames
  obtain ⟨c, hc, rfl, rfl⟩ := colon.of_terminal
  obtain ⟨quiet', plain', goes_on'⟩ := row₄.single.of_opt_typeDefinition
  have kind := reads_iff_derives.mp kind
  obtain ⟨k, tail, rfl, announces, quiet, goes_on, final⟩ := kind.of_typeKind
  have shape : [t] ++ (more ++ ([c] ++ (k :: tail ++ defined))) =
      t :: more ++ c :: k :: (tail ++ defined) := by
    simp
  rw [shape] at derived ⊢
  have last := derived.last_ne_comma
  have body : DeclarationBody .type c k (tail ++ defined) := by
    refine ⟨hc, announces, ?_, ?_, ?_, ?_⟩
    · intro x hx
      rcases List.mem_append.mp hx with hx | hx
      · exact quiet x hx
      · exact quiet' x hx
    · exact goes_on.append (goes_on' _ final).1
    · rw [show k :: (tail ++ defined) = (k :: tail) ++ defined from rfl, Progress.afterAll_append]
      exact (goes_on' _ final).2
    · intro x hx
      have behind : x ∈ ((t :: more ++ [c, k]) ++ (tail ++ defined)).getLast? :=
        List.mem_getLast?_append_of_mem_getLast? hx
      exact last x (by simpa using behind)
  have run : declarations .type (t :: more ++ c :: k :: (tail ++ defined)) =
      (names (t :: more)).map (⟨.type, ·, t :: more ++ c :: k :: (tail ++ defined)⟩) := by
    rw [declarations, declaredNames_eq hm ht hc]
  rw [run]
  refine ⟨?_, declared_type ht hm body, derived.partStart, fun _ => derived.partEnd rfl, ?_,
    fun d hd => written_of_mem_declarations .type derived (run ▸ hd)⟩
  · intro ts number located
    have tokens := derived.tokens
    rw [Nonterminal.tokens_assemble] at tokens
    have below : found ts number (kindParts ++ definition) = [] := by
      rw [found_append, kind.found_plain ts number rfl, plain']
      rfl
    rw [List.map_map]
    exact found_type ht hm hc tokens
      (fun x hx => List.mem_append_left _ hx) below located
  · intro d hd
    obtain ⟨n, _, rfl⟩ := List.mem_map.mp hd
    exact .self (derived.isPart (by decide))

theorem Derives.of_formulaKeyword {w : List Token} {parts : List ParseTree}
    (h : Derives (.phrase .formulaKeyword) w parts) :
    ∃ k, w = [k] ∧ parts = [.leaf k] ∧ k.terminal.announces? = some .formula ∧
      Progress.underWay.stopsAt k.terminal = false ∧
      Progress.underWay.after k.terminal = .underWay := by
  cases h with
  | phrase hb all =>
      obtain ⟨word, hw, rfl⟩ := List.mem_map.mp hb
      obtain ⟨k, hk, rfl, rfl⟩ := all.of_single.of_terminal
      refine ⟨k, rfl, rfl, ?_⟩
      rw [hk]
      clear hb hk all
      revert word
      decide

/-- The name of a formula declaration is the one before its colon. -/
theorem Reads.agrees_formula {w : List Token} {parts : List ParseTree}
    (h : Reads (.symbol (.phrase .formulaDeclaration)) w parts) :
    Agrees (.symbol (.phrase .theoryPart)) w parts (declarations .formula w) := by
  have derived := reads_iff_derives.mp h
  obtain ⟨children, rfl, row⟩ := h.of_phrase
  obtain ⟨_, _, _, _, rfl, rfl, name, row₁⟩ := row.of_row.uncons
  obtain ⟨_, _, _, _, rfl, rfl, colon, row₂⟩ := row₁.uncons
  obtain ⟨_, tail, _, body, rfl, rfl, keyword, row₃⟩ := row₂.uncons
  obtain ⟨t, ht, rfl, rfl⟩ := name.of_identifier
  obtain ⟨c, hc, rfl, rfl⟩ := colon.of_terminal
  obtain ⟨k, rfl, rfl, announces, goes_on, after⟩ := (reads_iff_derives.mp keyword).of_formulaKeyword
  have expr := reads_iff_derives.mp row₃.single
  obtain ⟨unbroken, final⟩ := expr.unbroken rfl .underWay nofun nofun
  have shape : [t] ++ ([c] ++ ([k] ++ tail)) = t :: c :: k :: tail := rfl
  rw [shape] at derived ⊢
  have body_ok : DeclarationBody .formula c k tail := by
    refine ⟨hc, announces, expr.silent rfl, ⟨goes_on, ?_⟩, ?_, expr.last_ne_comma⟩
    · rw [after]
      exact unbroken
    · rw [Progress.afterAll_cons, after, final]
      nofun
  have one : declarations .formula (t :: c :: k :: tail) =
      [⟨.formula, t, t :: c :: k :: tail⟩] := by
    have run := declaredNames_eq .nil ht hc (k :: tail)
    rw [List.singleton_append] at run
    simp [declarations, run, names, ht]
  rw [one]
  refine ⟨?_, declared_formula ht body_ok, derived.partStart, fun _ => derived.partEnd rfl, ?_,
    fun d hd => written_of_mem_declarations .formula derived (one ▸ hd)⟩
  · intro ts number located
    have tokens := derived.tokens
    rw [Nonterminal.tokens_assemble] at tokens
    have below : found ts number ([.leaf k] ++ body) = [] := by
      rw [found_append, found_leaf, expr.found_plain ts number rfl]
      rfl
    exact found_formula ht hc tokens List.mem_cons_self below located
  · intro d hd
    obtain rfl := List.mem_singleton.mp hd
    exact .self (derived.isPart (by decide))

/-- A declaration agrees, whatever its kind. -/
theorem Derives.agrees_declaration {kind : DeclarationKind} {w : List Token}
    {parts : List ParseTree} (h : Derives (.phrase kind.phrase) w parts) :
    Agrees (.symbol (.phrase .theoryPart)) w parts (declarations kind w) := by
  cases kind with
  | type => exact (reads_iff_derives.mpr h).agrees_type
  | formula => exact (reads_iff_derives.mpr h).agrees_formula

end PvsIndex
