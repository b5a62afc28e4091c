import PvsIndex.Proofs.Json.Grammar

/-!
# The grammar of JSON is unambiguous

A text is at most one value in JSON (`IsText.unique`), and where a value stands in a
longer text no other does (`isAlone`).  The first character of a value tells its kind
(`ValueAt.head`).  A run of blanks or digits is followed by something else, which
settles where it ends, and an escape for half of a surrogate pair is not an escape
for a character (`UnitAt.not_pair`).
-/

namespace PvsIndex

namespace Json

/-! ## Where runs end -/

/-- Nothing of the kind comes next. -/
def Stops (kind : Char → Bool) (rest : List Char) : Prop :=
  ∀ c ∈ rest.head?, kind c = false

section Runs

variable {input rest rest' : List Char}

theorem stops_nil (kind : Char → Bool) : Stops kind [] :=
  nofun

theorem stops_cons {kind : Char → Bool} {c : Char} (h : kind c = false) :
    Stops kind (c :: rest) := by
  rintro _ ⟨⟩
  exact h

theorem Stops.of_head {kind : Char → Bool} {c : Char} (h : Stops kind (c :: rest)) :
    kind c = false :=
  h c rfl

theorem BlanksAt.unique (h : BlanksAt input rest) (h' : BlanksAt input rest')
    (stops : Stops isBlank rest) (stops' : Stops isBlank rest') : rest = rest' := by
  induction h with
  | none =>
      cases h' with
      | none => rfl
      | more blank _ => exact absurd blank (ne_true_of_eq_false stops.of_head)
  | more blank _ ih =>
      cases h' with
      | none => exact absurd blank (ne_true_of_eq_false stops'.of_head)
      | more _ behind => exact ih behind stops

theorem DigitsAt.head {ds : List Char} (h : DigitsAt ds input rest) :
    ∃ c ∈ input.head?, c.isDigit = true := by
  cases h with
  | last digit => exact ⟨_, rfl, digit⟩
  | more digit _ => exact ⟨_, rfl, digit⟩

theorem DigitsAt.unique {ds ds' : List Char} (h : DigitsAt ds input rest)
    (h' : DigitsAt ds' input rest') (stops : Stops Char.isDigit rest)
    (stops' : Stops Char.isDigit rest') : ds = ds' ∧ rest = rest' := by
  induction h generalizing ds' with
  | last digit =>
      cases h' with
      | last _ => exact ⟨rfl, rfl⟩
      | more _ behind =>
          -- the shorter run would be followed by a digit
          obtain ⟨c, first, digit⟩ := behind.head
          exact absurd digit (ne_true_of_eq_false (stops c first))
  | more digit behind ih =>
      cases h' with
      | last _ =>
          obtain ⟨c, first, digit⟩ := behind.head
          exact absurd digit (ne_true_of_eq_false (stops' c first))
      | more _ behind' =>
          obtain ⟨rfl, rfl⟩ := ih behind' stops
          exact ⟨rfl, rfl⟩

/-- No blank is of the kind. -/
def IsSolid (kind : Char → Bool) : Prop :=
  kind ' ' = false ∧ kind '\t' = false ∧ kind '\n' = false ∧ kind '\r' = false

theorem IsSolid.not_of_blank {kind : Char → Bool} (solid : IsSolid kind) {c : Char}
    (blank : isBlank c = true) : kind c = false := by
  obtain ⟨space, tab, line, back⟩ := solid
  simp only [isBlank, Bool.or_eq_true, decide_eq_true_eq] at blank
  rcases blank with ((rfl | rfl) | rfl) | rfl
  · exact space
  · exact tab
  · exact line
  · exact back

theorem BlanksAt.stops {kind : Char → Bool} (solid : IsSolid kind) (h : BlanksAt input rest)
    (stops : Stops kind rest) : Stops kind input := by
  cases h with
  | none => exact stops
  | more blank _ => exact stops_cons (solid.not_of_blank blank)

end Runs

/-! ## Numbers -/

/-- Can the character go on a number that could also end? -/
def isNumeric (c : Char) : Bool :=
  c.isDigit || c = '.' || c = 'e' || c = 'E'

theorem isSolid_numeric : IsSolid isNumeric :=
  ⟨rfl, rfl, rfl, rfl⟩

section Numbers

variable {input rest rest' : List Char}

theorem stops_digit_of_numeric (stops : Stops isNumeric rest) : Stops Char.isDigit rest := by
  intro c first
  have other := stops c first
  simp only [isNumeric, Bool.or_eq_false_iff] at other
  exact other.1.1.1

theorem SignedAt.unique {plus negative negative' : Bool} {ds ds' : List Char}
    (h : SignedAt plus negative ds input rest) (h' : SignedAt plus negative' ds' input rest')
    (stops : Stops Char.isDigit rest) (stops' : Stops Char.isDigit rest') :
    negative = negative' ∧ ds = ds' ∧ rest = rest' := by
  cases h with
  | bare digits =>
      cases h' with
      | bare digits' => exact ⟨rfl, digits.unique digits' stops stops'⟩
      | plus _ _ => obtain ⟨_, ⟨⟩, ⟨⟩⟩ := digits.head
      | minus _ => obtain ⟨_, ⟨⟩, ⟨⟩⟩ := digits.head
  | plus _ digits =>
      cases h' with
      | bare digits' => obtain ⟨_, ⟨⟩, ⟨⟩⟩ := digits'.head
      | plus _ digits' => exact ⟨rfl, digits.unique digits' stops stops'⟩
  | minus digits =>
      cases h' with
      | bare digits' => obtain ⟨_, ⟨⟩, ⟨⟩⟩ := digits'.head
      | minus digits' => exact ⟨rfl, digits.unique digits' stops stops'⟩

theorem ExponentAt.unique {e e' : Int} (h : ExponentAt e input rest)
    (h' : ExponentAt e' input rest') (stops : Stops isNumeric rest)
    (stops' : Stops isNumeric rest') : e = e' ∧ rest = rest' := by
  have numeric {c : Char} (h : c = 'e' ∨ c = 'E') : isNumeric c = true := by
    rcases h with rfl | rfl
    · rfl
    · rfl
  cases h with
  | none =>
      cases h' with
      | none => exact ⟨rfl, rfl⟩
      | power letter _ => exact absurd (numeric letter) (ne_true_of_eq_false stops.of_head)
  | power letter signed =>
      cases h' with
      | none => exact absurd (numeric letter) (ne_true_of_eq_false stops'.of_head)
      | power _ signed' =>
          obtain ⟨rfl, rfl, rfl⟩ := signed.unique signed' (stops_digit_of_numeric stops)
            (stops_digit_of_numeric stops')
          exact ⟨rfl, rfl⟩

/-- In front of an exponent, written or not, no digits and no point go on. -/
theorem ExponentAt.stops {e : Int} (h : ExponentAt e input rest) (stops : Stops isNumeric rest) :
    Stops Char.isDigit input ∧ input.head? ≠ some '.' := by
  cases h with
  | none =>
      refine ⟨stops_digit_of_numeric stops, fun point => ?_⟩
      exact absurd (stops _ point) (by decide)
  | power letter _ =>
      rcases letter with rfl | rfl
      · exact ⟨stops_cons rfl, by simp⟩
      · exact ⟨stops_cons rfl, by simp⟩

theorem FractionAt.unique {ds ds' : List Char} (h : FractionAt ds input rest)
    (h' : FractionAt ds' input rest') (stops : Stops Char.isDigit rest ∧ rest.head? ≠ some '.')
    (stops' : Stops Char.isDigit rest' ∧ rest'.head? ≠ some '.') : ds = ds' ∧ rest = rest' := by
  cases h with
  | none =>
      cases h' with
      | none => exact ⟨rfl, rfl⟩
      | point _ => exact absurd rfl stops.2
  | point digits =>
      cases h' with
      | none => exact absurd rfl stops'.2
      | point digits' => exact digits.unique digits' stops.1 stops'.1

theorem FractionAt.stops {ds : List Char} (h : FractionAt ds input rest)
    (stops : Stops Char.isDigit rest) : Stops Char.isDigit input := by
  cases h with
  | none => exact stops
  | point _ => exact stops_cons rfl

theorem NumberAt.unique {s s' e e' : Int} (h : NumberAt s e input rest)
    (h' : NumberAt s' e' input rest') (stops : Stops isNumeric rest)
    (stops' : Stops isNumeric rest') : (s = s' ∧ e = e') ∧ rest = rest' := by
  obtain ⟨whole, _, fraction, exponent⟩ := h
  obtain ⟨whole', _, fraction', exponent'⟩ := h'
  have behind := exponent.stops stops
  have behind' := exponent'.stops stops'
  obtain ⟨rfl, rfl, rfl⟩ :=
    whole.unique whole' (fraction.stops behind.1) (fraction'.stops behind'.1)
  obtain ⟨rfl, rfl⟩ := fraction.unique fraction' behind behind'
  obtain ⟨rfl, rfl⟩ := exponent.unique exponent' stops stops'
  exact ⟨⟨rfl, rfl⟩, rfl⟩

/-- A number begins with a digit or a minus. -/
theorem NumberAt.head {s e : Int} (h : NumberAt s e input rest) :
    ∃ c ∈ input.head?, (c.isDigit || c = '-') = true := by
  obtain ⟨whole, _, _, _⟩ := h
  cases whole with
  | bare digits =>
      obtain ⟨c, first, digit⟩ := digits.head
      exact ⟨c, first, by rw [digit]; rfl⟩
  | plus never _ => cases never
  | minus _ => exact ⟨'-', rfl, rfl⟩

end Numbers

/-! ## Strings -/

section Strings

variable {input rest rest' : List Char}

theorem UnitAt.unique {n n' : Nat} (h : UnitAt n input rest) (h' : UnitAt n' input rest') :
    n = n' ∧ rest = rest' := by
  obtain ⟨a, b, c, d⟩ := h
  obtain ⟨a', b', c', d'⟩ := h'
  obtain rfl := Option.some.inj (a.symm.trans a')
  obtain rfl := Option.some.inj (b.symm.trans b')
  obtain rfl := Option.some.inj (c.symm.trans c')
  obtain rfl := Option.some.inj (d.symm.trans d')
  exact ⟨rfl, rfl⟩

theorem shortEscapes_unique {e c c' : Char} (h : (e, c) ∈ shortEscapes)
    (h' : (e, c') ∈ shortEscapes) : c = c' := by
  have table : ∀ p ∈ shortEscapes, ∀ q ∈ shortEscapes, p.1 = q.1 → p.2 = q.2 := by decide
  exact table _ h _ h' rfl

theorem UnitAt.backslash {n : Nat} {c : Char} (h : UnitAt n (c :: input) rest) : c = '\\' := by
  cases h
  rfl

theorem UnitAt.not_short {n : Nat} {e c : Char} (h : UnitAt n ('\\' :: e :: input) rest) :
    (e, c) ∉ shortEscapes := by
  have table : ∀ p ∈ shortEscapes, p.1 ≠ 'u' := by decide
  cases h
  exact fun short => table _ short rfl

/-- No character is half of a surrogate pair. -/
theorem not_surrogate {c : Char} (low : 0xD800 ≤ c.toNat) (high : c.toNat < 0xE000) : False := by
  have valid : c.toNat < 0xD800 ∨ 0xDFFF < c.toNat ∧ c.toNat < 0x110000 := c.valid
  omega

/-- The escape of a character by its unit is not the first half of a pair. -/
theorem UnitAt.not_pair {c : Char} {high : Nat} (h : UnitAt c.toNat input rest)
    (h' : UnitAt high input rest') (first : 0xD800 ≤ high) (last : high < 0xDC00) : False := by
  obtain ⟨rfl, _⟩ := h.unique h'
  exact not_surrogate first (by omega)

theorem CharacterAt.unique {c c' : Char} (h : CharacterAt c input rest)
    (h' : CharacterAt c' input rest') : c = c' ∧ rest = rest' := by
  cases h with
  | plain _ _ other =>
      cases h' with
      | plain _ _ _ => exact ⟨rfl, rfl⟩
      | short _ => exact absurd rfl other
      | unit unit => exact absurd unit.backslash other
      | pair unit => exact absurd unit.backslash other
  | short short =>
      cases h' with
      | plain _ _ other => exact absurd rfl other
      | short short' => exact ⟨shortEscapes_unique short short', rfl⟩
      | unit unit => exact absurd short unit.not_short
      | pair unit => exact absurd short unit.not_short
  | unit unit =>
      cases h' with
      | plain _ _ other => exact absurd unit.backslash other
      | short short => exact absurd short unit.not_short
      | unit unit' =>
          obtain ⟨same, rfl⟩ := unit.unique unit'
          exact ⟨Char.toNat_inj.mp same, rfl⟩
      | pair unit' _ first last => exact (unit.not_pair unit' first last).elim
  | pair unit second first last _ _ whole =>
      cases h' with
      | plain _ _ other => exact absurd unit.backslash other
      | short short => exact absurd short unit.not_short
      | unit unit' => exact (unit'.not_pair unit first last).elim
      | pair unit' second' _ _ _ _ whole' =>
          obtain ⟨rfl, rfl⟩ := unit.unique unit'
          obtain ⟨rfl, rfl⟩ := second.unique second'
          exact ⟨Char.toNat_inj.mp (whole.trans whole'.symm), rfl⟩

/-- A quote inside a string is escaped. -/
theorem not_characterAt_quote {c : Char} : ¬ CharacterAt c ('"' :: input) rest := by
  intro h
  cases h with
  | plain _ other _ => exact other rfl
  | unit unit => exact absurd unit.backslash (by decide)
  | pair unit => exact absurd unit.backslash (by decide)

theorem CharactersAt.unique {cs cs' : List Char} (h : CharactersAt cs input rest)
    (h' : CharactersAt cs' input rest') : cs = cs' ∧ rest = rest' := by
  induction h generalizing cs' with
  | close =>
      cases h' with
      | close => exact ⟨rfl, rfl⟩
      | more first _ => exact absurd first not_characterAt_quote
  | more first _ ih =>
      cases h' with
      | close => exact absurd first not_characterAt_quote
      | more first' behind' =>
          obtain ⟨rfl, rfl⟩ := first.unique first'
          obtain ⟨rfl, rfl⟩ := ih behind'
          exact ⟨rfl, rfl⟩

end Strings

/-! ## Values -/

/-- The kinds of values. -/
inductive Kind where
  | null
  | boolean
  | number
  | string
  | array
  | object

/-- The kind of a value. -/
def kind : JsonValue → Kind
  | .null => .null
  | .boolean _ => .boolean
  | .number _ _ => .number
  | .string _ => .string
  | .array _ => .array
  | .object _ => .object

/-- The kind of the values that begin with a character. -/
def kindOf? (c : Char) : Option Kind :=
  if (c.isDigit || c = '-') = true then some .number
  else if c = 'n' then some .null
  else if c = 't' ∨ c = 'f' then some .boolean
  else if c = '"' then some .string
  else if c = '[' then some .array
  else if c = '\x7b' then some .object
  else none

section Values

variable {v v' : JsonValue} {input rest rest' : List Char}

/-- The first character tells the kind. -/
theorem ValueAt.head (h : ValueAt v input rest) : ∃ c ∈ input.head?, kindOf? c = some (kind v) := by
  cases h with
  | number number =>
      obtain ⟨c, first, opening⟩ := number.head
      exact ⟨c, first, if_pos opening⟩
  | _ => exact ⟨_, rfl, rfl⟩

theorem ValueAt.kind_eq (h : ValueAt v input rest) (h' : ValueAt v' input rest') :
    kind v = kind v' := by
  obtain ⟨c, first, opening⟩ := h.head
  obtain ⟨c', first', opening'⟩ := h'.head
  obtain rfl : c = c' := Option.some.inj (first.symm.trans first')
  exact Option.some.inj (opening.symm.trans opening')

theorem ValueAt.stops_blank (h : ValueAt v input rest) : Stops isBlank input := by
  have solid : IsSolid fun c => (kindOf? c).isSome := ⟨rfl, rfl, rfl, rfl⟩
  obtain ⟨c, first, opening⟩ := h.head
  rintro d other
  obtain rfl : c = d := Option.some.inj (first.symm.trans other)
  refine eq_false_of_ne_true fun blank => ?_
  have closed := solid.not_of_blank blank
  rw [opening] at closed
  cases closed

/-- What may follow an element: neither a blank nor what could go on a number. -/
def Ends (rest : List Char) : Prop :=
  Stops isBlank rest ∧ Stops isNumeric rest

theorem ends_nil : Ends [] :=
  ⟨stops_nil _, stops_nil _⟩

theorem ends_comma : Ends (',' :: rest) :=
  ⟨stops_cons rfl, stops_cons rfl⟩

theorem ends_bracket : Ends (']' :: rest) :=
  ⟨stops_cons rfl, stops_cons rfl⟩

theorem ends_brace : Ends ('\x7d' :: rest) :=
  ⟨stops_cons rfl, stops_cons rfl⟩

/-- An empty array has no items. -/
theorem ItemsAt.not_blanks {items : List JsonValue} (h : ItemsAt items input rest)
    (blanks : BlanksAt input (']' :: rest')) : False := by
  have element {v : JsonValue} {next : List Char} (h : ElementAt v input next) : False := by
    obtain ⟨before, value, _⟩ := h
    obtain rfl := before.unique blanks value.stops_blank (stops_cons rfl)
    obtain ⟨_, ⟨⟩, opening⟩ := value.head
    cases opening
  cases h with
  | last h => exact element h
  | more h _ => exact element h

/-- An empty object has no members. -/
theorem MembersAt.not_blanks {members : List (String × JsonValue)}
    (h : MembersAt members input rest) (blanks : BlanksAt input ('\x7d' :: rest')) : False := by
  have member {m : String × JsonValue} {next : List Char} (h : MemberAt m input next) : False := by
    obtain ⟨before, _, _, _⟩ := h
    cases before.unique blanks (stops_cons rfl) (stops_cons rfl)
  cases h with
  | last h => exact member h
  | more h _ => exact member h

end Values

/-- Where the value stands, no other does. -/
structure IsAlone (v : JsonValue) : Prop where
  unique : ∀ {v' : JsonValue} {input rest rest' : List Char}, ValueAt v input rest →
    ValueAt v' input rest' → Stops isNumeric rest → Stops isNumeric rest' → v = v' ∧ rest = rest'

section Alone

variable {v v' : JsonValue} {input rest rest' : List Char}

theorem IsAlone.elementAt (alone : IsAlone v) (h : ElementAt v input rest)
    (h' : ElementAt v' input rest') (ends : Ends rest) (ends' : Ends rest') :
    v = v' ∧ rest = rest' := by
  obtain ⟨before, value, after⟩ := h
  obtain ⟨before', value', after'⟩ := h'
  obtain rfl := before.unique before' value.stops_blank value'.stops_blank
  obtain ⟨rfl, rfl⟩ := alone.unique value value' (after.stops isSolid_numeric ends.2)
    (after'.stops isSolid_numeric ends'.2)
  exact ⟨rfl, after.unique after' ends.1 ends'.1⟩

theorem IsAlone.memberAt {key : String} {m : String × JsonValue} (alone : IsAlone v)
    (h : MemberAt (key, v) input rest) (h' : MemberAt m input rest') (ends : Ends rest)
    (ends' : Ends rest') : (key, v) = m ∧ rest = rest' := by
  obtain ⟨before, name, after, value⟩ := h
  obtain ⟨before', name', after', value'⟩ := h'
  cases before.unique before' (stops_cons rfl) (stops_cons rfl)
  obtain ⟨rfl, rfl⟩ := name.unique name'
  cases after.unique after' (stops_cons rfl) (stops_cons rfl)
  obtain ⟨rfl, rfl⟩ := alone.elementAt value value' ends ends'
  exact ⟨rfl, rfl⟩

theorem ItemsAt.unique {vs vs' : List JsonValue} (alone : ∀ v ∈ vs, IsAlone v)
    (h : ItemsAt vs input rest) (h' : ItemsAt vs' input rest') : vs = vs' ∧ rest = rest' := by
  -- by the items, since the judgements of values and of rows of values go together
  induction vs generalizing input vs' with
  | nil => cases h
  | cons v vs ih =>
      rw [List.forall_mem_cons] at alone
      cases h with
      | last item =>
          cases h' with
          | last item' =>
              obtain ⟨rfl, ⟨⟩⟩ := alone.1.elementAt item item' ends_bracket ends_bracket
              exact ⟨rfl, rfl⟩
          | more item' _ =>
              obtain ⟨_, ⟨⟩⟩ := alone.1.elementAt item item' ends_bracket ends_comma
      | more item others =>
          cases h' with
          | last item' =>
              obtain ⟨_, ⟨⟩⟩ := alone.1.elementAt item item' ends_comma ends_bracket
          | more item' others' =>
              obtain ⟨rfl, ⟨⟩⟩ := alone.1.elementAt item item' ends_comma ends_comma
              obtain ⟨rfl, rfl⟩ := ih alone.2 others others'
              exact ⟨rfl, rfl⟩

theorem MembersAt.unique {ms ms' : List (String × JsonValue)} (alone : ∀ m ∈ ms, IsAlone m.2)
    (h : MembersAt ms input rest) (h' : MembersAt ms' input rest') : ms = ms' ∧ rest = rest' := by
  induction ms generalizing input ms' with
  | nil => cases h
  | cons m ms ih =>
      rw [List.forall_mem_cons] at alone
      cases h with
      | last member =>
          cases h' with
          | last member' =>
              obtain ⟨rfl, ⟨⟩⟩ := alone.1.memberAt member member' ends_brace ends_brace
              exact ⟨rfl, rfl⟩
          | more member' _ =>
              obtain ⟨_, ⟨⟩⟩ := alone.1.memberAt member member' ends_brace ends_comma
      | more member others =>
          cases h' with
          | last member' =>
              obtain ⟨_, ⟨⟩⟩ := alone.1.memberAt member member' ends_comma ends_brace
          | more member' others' =>
              obtain ⟨rfl, ⟨⟩⟩ := alone.1.memberAt member member' ends_comma ends_comma
              obtain ⟨rfl, rfl⟩ := ih alone.2 others others'
              exact ⟨rfl, rfl⟩

theorem IsAlone.null : IsAlone .null := by
  refine ⟨@fun v' _ _ _ h h' _ _ => ?_⟩
  have same := h.kind_eq h'
  cases v' with
  | null =>
      cases h
      cases h'
      exact ⟨rfl, rfl⟩
  | _ => cases same

theorem IsAlone.boolean (b : Bool) : IsAlone (.boolean b) := by
  refine ⟨@fun v' _ _ _ h h' _ _ => ?_⟩
  have same := h.kind_eq h'
  cases v' with
  | boolean b' =>
      cases h with
      | verum =>
          cases h'
          exact ⟨rfl, rfl⟩
      | falsum =>
          cases h'
          exact ⟨rfl, rfl⟩
  | _ => cases same

theorem IsAlone.number (s e : Int) : IsAlone (.number s e) := by
  refine ⟨@fun v' _ _ _ h h' stops stops' => ?_⟩
  have same := h.kind_eq h'
  cases v' with
  | number s' e' =>
      cases h with
      | number number =>
          cases h' with
          | number number' =>
              obtain ⟨⟨rfl, rfl⟩, rfl⟩ := number.unique number' stops stops'
              exact ⟨rfl, rfl⟩
  | _ => cases same

theorem IsAlone.string (s : String) : IsAlone (.string s) := by
  refine ⟨@fun v' _ _ _ h h' _ _ => ?_⟩
  have same := h.kind_eq h'
  cases v' with
  | string s' =>
      cases h with
      | string characters =>
          cases h' with
          | string characters' =>
              obtain ⟨rfl, rfl⟩ := characters.unique characters'
              exact ⟨rfl, rfl⟩
  | _ => cases same

theorem IsAlone.array {vs : List JsonValue} (alone : ∀ v ∈ vs, IsAlone v) :
    IsAlone (.array vs) := by
  refine ⟨@fun v' _ _ _ h h' _ _ => ?_⟩
  have same := h.kind_eq h'
  cases v' with
  | array vs' =>
      cases h with
      | noItems blanks =>
          cases h' with
          | noItems blanks' =>
              cases blanks.unique blanks' (stops_cons rfl) (stops_cons rfl)
              exact ⟨rfl, rfl⟩
          | items items' => exact (items'.not_blanks blanks).elim
      | items items =>
          cases h' with
          | noItems blanks' => exact (items.not_blanks blanks').elim
          | items items' =>
              obtain ⟨rfl, rfl⟩ := items.unique alone items'
              exact ⟨rfl, rfl⟩
  | _ => cases same

theorem IsAlone.object {ms : List (String × JsonValue)} (alone : ∀ m ∈ ms, IsAlone m.2) :
    IsAlone (.object ms) := by
  refine ⟨@fun v' _ _ _ h h' _ _ => ?_⟩
  have same := h.kind_eq h'
  cases v' with
  | object ms' =>
      cases h with
      | noMembers blanks =>
          cases h' with
          | noMembers blanks' =>
              cases blanks.unique blanks' (stops_cons rfl) (stops_cons rfl)
              exact ⟨rfl, rfl⟩
          | members members' => exact (members'.not_blanks blanks).elim
      | members members =>
          cases h' with
          | noMembers blanks' => exact (members.not_blanks blanks').elim
          | members members' =>
              obtain ⟨rfl, rfl⟩ := members.unique alone members'
              exact ⟨rfl, rfl⟩
  | _ => cases same

end Alone

theorem sizeOf_item {v : JsonValue} {vs : List JsonValue} (h : v ∈ vs) :
    sizeOf v < sizeOf (JsonValue.array vs) := by
  have smaller := List.sizeOf_lt_of_mem h
  rw [JsonValue.array.sizeOf_spec]
  omega

theorem sizeOf_member {m : String × JsonValue} {ms : List (String × JsonValue)} (h : m ∈ ms) :
    sizeOf m.2 < sizeOf (JsonValue.object ms) := by
  have smaller := List.sizeOf_lt_of_mem h
  have whole : sizeOf m = 1 + sizeOf m.1 + sizeOf m.2 := Prod.mk.sizeOf_spec m.1 m.2
  rw [JsonValue.object.sizeOf_spec]
  omega

/-- The grammar is unambiguous. -/
theorem isAlone : ∀ v : JsonValue, IsAlone v
  | .null => .null
  | .boolean b => .boolean b
  | .number s e => .number s e
  | .string s => .string s
  | .array vs => .array fun v _ => isAlone v
  | .object ms => .object fun m _ => isAlone m.2
termination_by v => v
decreasing_by
  · exact sizeOf_item ‹_›
  · exact sizeOf_member ‹_›

/-- A text is one value in JSON. -/
theorem IsText.unique {v v' : JsonValue} {text : List Char} (h : IsText v text)
    (h' : IsText v' text) : v = v' :=
  ((isAlone v).elementAt h h' ends_nil ends_nil).1

end Json

end PvsIndex
