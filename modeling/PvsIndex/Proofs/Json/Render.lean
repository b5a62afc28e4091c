import PvsIndex.Proofs.Json.Unambiguous

/-!
# Rendered values

What is rendered is JSON, for the value that was rendered and for no other
(`isText_render_iff`), and every character of it stands between space and tilde
(`isAscii_render`), so it is one line.

Both go by the recursion of `Json.render`.  The grammar is followed with an arbitrary
rest, so that each part is read where it stands.
-/

namespace PvsIndex

namespace Json

mutual

/-- The value that is rendered, as one of all JSON values. -/
def value : Json → JsonValue
  | number n => .number n 0
  | string s => .string s
  | array items => .array (values items)
  | object members => .object (memberValues members)

/-- The values of items. -/
def values : List Json → List JsonValue
  | [] => []
  | item :: items => item.value :: values items

/-- Members with their values. -/
def memberValues : List (String × Json) → List (String × JsonValue)
  | [] => []
  | (key, item) :: members => (key, item.value) :: memberValues members

end

mutual

/-- Different values stay different. -/
theorem value_injective : ∀ {v v' : Json}, v.value = v'.value → v = v'
  | number n, v', same => by
      cases v' with
      | number n' => cases same; rfl
      | _ => cases same
  | string s, v', same => by
      cases v' with
      | string s' => cases same; rfl
      | _ => cases same
  | array items, v', same => by
      cases v' with
      | array items' => rw [values_injective (JsonValue.array.inj same)]
      | _ => cases same
  | object members, v', same => by
      cases v' with
      | object members' => rw [memberValues_injective (JsonValue.object.inj same)]
      | _ => cases same

theorem values_injective : ∀ {items items' : List Json},
    values items = values items' → items = items'
  | [], [], _ => rfl
  | [], _ :: _, same => by cases same
  | _ :: _, [], same => by cases same
  | item :: items, item' :: items', same => by
      obtain ⟨first, others⟩ := List.cons.inj same
      rw [value_injective first, values_injective others]

theorem memberValues_injective : ∀ {members members' : List (String × Json)},
    memberValues members = memberValues members' → members = members'
  | [], [], _ => rfl
  | [], _ :: _, same => by cases same
  | _ :: _, [], same => by cases same
  | (key, item) :: members, (key', item') :: members', same => by
      obtain ⟨first, others⟩ := List.cons.inj same
      obtain ⟨rfl, same_item⟩ := Prod.mk.inj first
      rw [value_injective same_item, memberValues_injective others]

end

/-! ## Numbers -/

theorem digitsAt_append {ds : List Char} (nonempty : ds ≠ [])
    (digits : ∀ c ∈ ds, c.isDigit = true) (rest : List Char) : DigitsAt ds (ds ++ rest) rest := by
  induction ds with
  | nil => exact absurd rfl nonempty
  | cons c ds ih =>
      have digit := digits c List.mem_cons_self
      cases ds with
      | nil => exact .last digit
      | cons d ds =>
          exact .more digit (ih nofun fun e he => digits e (List.mem_cons_of_mem _ he))

theorem digitsAt_toDigits (n : Nat) (rest : List Char) :
    DigitsAt (Nat.toDigits 10 n) (Nat.toDigits 10 n ++ rest) rest :=
  digitsAt_append Nat.toDigits_ne_nil
    (fun _ h => Nat.isDigit_of_mem_toDigits (by decide) (by decide) h) rest

/-- The digits of a number begin with a zero only if it is zero. -/
theorem toDigits_head_zero {n : Nat} (h : (Nat.toDigits 10 n).head? = some '0') :
    Nat.toDigits 10 n = ['0'] := by
  have zero : n = 0 := by
    induction n using Nat.strongRecOn with
    | _ n ih =>
        by_cases small : n < 10
        · have table : ∀ d < 10, Nat.digitChar d = '0' → d = 0 := by decide
          rw [Nat.toDigits_of_lt_base small] at h
          exact table n small (Option.some.inj h)
        · obtain ⟨d, ds, digits⟩ :=
            List.exists_cons_of_ne_nil (@Nat.toDigits_ne_nil (n / 10) 10)
          rw [Nat.toDigits_of_base_le (by decide) (by omega), digits] at h
          have zero := ih (n / 10) (by omega) (by rw [digits]; exact h)
          omega
  rw [zero]
  rfl

theorem natOf_toDigits (n : Nat) : natOf (Nat.toDigits 10 n ++ []) = n := by
  rw [List.append_nil, natOf, Nat.ofDigitChars_toDigits (by decide) (by decide)]

theorem numberAt_decimal (n : Int) (rest : List Char) :
    NumberAt n 0 (decimal n ++ rest) rest := by
  cases n with
  | ofNat n =>
      have number : NumberAt (signed false (natOf (Nat.toDigits 10 n ++ []))) _ _ rest :=
        .mk (.bare (digitsAt_toDigits n rest)) toDigits_head_zero .none .none
      rw [natOf_toDigits] at number
      exact number
  | negSucc n =>
      have number : NumberAt (signed true (natOf (Nat.toDigits 10 (n + 1) ++ []))) _ _ rest :=
        .mk (.minus (digitsAt_toDigits (n + 1) rest)) toDigits_head_zero .none .none
      rw [natOf_toDigits] at number
      exact number

/-! ## Strings -/

theorem hexValue?_hexDigit (n : Nat) : hexValue? (hexDigit n) = some (n % 16) := by
  have table : ∀ d < 16, hexValue? (Nat.digitChar d) = some d := by decide
  exact table (n % 16) (Nat.mod_lt n (by decide))

theorem unitAt_escapeUnit {n : Nat} (h : n < 0x10000) (rest : List Char) :
    UnitAt n (escapeUnit n ++ rest) rest := by
  have unit : UnitAt _ (escapeUnit n ++ rest) rest :=
    .mk (hexValue?_hexDigit (n / 4096)) (hexValue?_hexDigit (n / 256)) (hexValue?_hexDigit (n / 16))
      (hexValue?_hexDigit n)
  have whole : n / 4096 % 16 * 4096 + n / 256 % 16 * 256 + n / 16 % 16 * 16 + n % 16 = n := by
    omega
  rw [whole] at unit
  exact unit

/-- A character is written by its unit, or by the two surrogates that join to it. -/
theorem characterAt_units (c : Char) (rest : List Char) :
    CharacterAt c ((units c).flatMap escapeUnit ++ rest) rest := by
  have bound : c.toNat < 0xD800 ∨ 0xDFFF < c.toNat ∧ c.toNat < 0x110000 := c.valid
  rw [units]
  split
  next single =>
      rw [List.flatMap_cons, List.flatMap_nil, List.append_nil]
      exact .unit (unitAt_escapeUnit single rest)
  next double =>
      rw [List.flatMap_cons, List.flatMap_cons, List.flatMap_nil, List.append_nil,
        List.append_assoc]
      refine .pair (unitAt_escapeUnit (by omega) _) (unitAt_escapeUnit (by omega) rest) (by omega)
        (by omega) (by omega) (by omega) ?_
      unfold joined
      omega

theorem characterAt_escape (c : Char) (rest : List Char) :
    CharacterAt c (escape c ++ rest) rest := by
  rw [escape]
  split
  next quote =>
      subst quote
      exact .short (by decide)
  next other =>
  split
  next backslash =>
      subst backslash
      exact .short (by decide)
  next solid =>
  split
  next h =>
      subst h
      exact .short (by decide)
  split
  next h =>
      subst h
      exact .short (by decide)
  split
  next h =>
      subst h
      exact .short (by decide)
  split
  next h =>
      subst h
      exact .short (by decide)
  split
  next h =>
      subst h
      exact .short (by decide)
  split
  next plain => exact .plain plain.1 other solid
  next => exact characterAt_units c rest

example : "\"\u007F😀".toList.flatMap escape = "\\\"\\u007f\\ud83d\\ude00".toList := by
  decide

theorem charactersAt_escape (cs rest : List Char) :
    CharactersAt cs (cs.flatMap escape ++ '"' :: rest) rest := by
  induction cs with
  | nil => exact .close
  | cons c cs ih =>
      rw [List.flatMap_cons, List.append_assoc]
      exact .more (characterAt_escape c _) ih

theorem quote_append (s : String) (rest : List Char) :
    quote s ++ rest = '"' :: (s.toList.flatMap escape ++ '"' :: rest) := by
  rw [quote, List.cons_append, List.cons_append, List.append_assoc, List.singleton_append]

/-! ## Values -/

theorem ElementAt.bare {v : JsonValue} {input rest : List Char} (h : ValueAt v input rest) :
    ElementAt v input rest :=
  .mk .none h .none

/-- A space in front of the items belongs to the first. -/
theorem ItemsAt.space {vs : List JsonValue} {input rest : List Char} (h : ItemsAt vs input rest) :
    ItemsAt vs (' ' :: input) rest := by
  have element {v : JsonValue} {rest : List Char} : ElementAt v input rest →
      ElementAt v (' ' :: input) rest := by
    rintro ⟨before, value, after⟩
    exact .mk (.more rfl before) value after
  cases h with
  | last item => exact .last (element item)
  | more item others => exact .more (element item) others

/-- A space in front of the members belongs to the first. -/
theorem MembersAt.space {ms : List (String × JsonValue)} {input rest : List Char}
    (h : MembersAt ms input rest) : MembersAt ms (' ' :: input) rest := by
  have spaced {m : String × JsonValue} {rest : List Char} : MemberAt m input rest →
      MemberAt m (' ' :: input) rest := by
    rintro ⟨before, key, after, value⟩
    exact .mk (.more rfl before) key after value
  cases h with
  | last member => exact .last (spaced member)
  | more member others => exact .more (spaced member) others

theorem memberAt_quote {key : String} {v : JsonValue} {input rest : List Char}
    (h : ValueAt v input rest) : MemberAt (key, v) (quote key ++ ':' :: ' ' :: input) rest := by
  have characters := charactersAt_escape key.toList (':' :: ' ' :: input)
  rw [quote_append]
  have member := MemberAt.mk .none characters .none (.mk (.more rfl .none) h .none)
  rw [String.ofList_toList] at member
  exact member

mutual

theorem valueAt_render : ∀ (v : Json) (rest : List Char), ValueAt v.value (v.render ++ rest) rest
  | number n, rest => by
      rw [render]
      exact .number (numberAt_decimal n rest)
  | string s, rest => by
      have string := ValueAt.string (charactersAt_escape s.toList rest)
      rw [String.ofList_toList] at string
      rw [render, quote_append]
      exact string
  | array [], rest => .noItems .none
  | array (item :: items), rest => by
      rw [render, List.cons_append, List.cons_append, List.append_assoc, List.singleton_append]
      exact .items (itemsAt_render (item :: items) rest nofun)
  | object [], rest => .noMembers .none
  | object (member :: members), rest => by
      rw [render, List.cons_append, List.cons_append, List.append_assoc, List.singleton_append]
      exact .members (membersAt_render (member :: members) rest nofun)

theorem itemsAt_render : ∀ (items : List Json) (rest : List Char), items ≠ [] →
    ItemsAt (values items) (renderItems items ++ ']' :: rest) rest
  | [], _, nonempty => absurd rfl nonempty
  | [item], rest, _ => .last (.bare (valueAt_render item _))
  | item :: next :: items, rest, _ => by
      have others := (itemsAt_render (next :: items) rest nofun).space
      rw [renderItems, List.append_assoc]
      · exact .more (.bare (valueAt_render item _)) others
      · exact nofun

theorem membersAt_render : ∀ (members : List (String × Json)) (rest : List Char), members ≠ [] →
    MembersAt (memberValues members) (renderMembers members ++ '\x7d' :: rest) rest
  | [], _, nonempty => absurd rfl nonempty
  | [(key, item)], rest, _ => by
      rw [renderMembers, List.append_assoc]
      exact .last (memberAt_quote (valueAt_render item _))
  | (key, item) :: next :: members, rest, _ => by
      have others := (membersAt_render (next :: members) rest nofun).space
      rw [renderMembers, List.append_assoc, List.cons_append, List.cons_append, List.append_assoc]
      · exact .more (memberAt_quote (valueAt_render item _)) others
      · exact nofun

end

/-- The text of a value is this value in JSON, and no other. -/
theorem isText_render_iff {v : JsonValue} {j : Json} : IsText v j.render ↔ v = j.value := by
  have rendered : IsText j.value j.render := by
    have at_front := valueAt_render j []
    rw [List.append_nil] at at_front
    exact .bare at_front
  constructor
  · exact fun other => other.unique rendered
  · rintro rfl
    exact rendered

/-- Different values are written differently. -/
theorem render_injective {j j' : Json} (same : j.render = j'.render) : j = j' :=
  value_injective (isText_render_iff.mp (same ▸ isText_render_iff.mpr rfl))

/-! ## Characters -/

/-- All characters stand between space and tilde. -/
def IsAscii (text : List Char) : Prop :=
  ∀ c ∈ text, ' ' ≤ c ∧ c ≤ '~'

instance (text : List Char) : Decidable (IsAscii text) :=
  List.decidableBAll _ text

theorem isAscii_append {front back : List Char} (hf : IsAscii front) (hb : IsAscii back) :
    IsAscii (front ++ back) :=
  List.forall_mem_append.mpr ⟨hf, hb⟩

theorem isAscii_cons {c : Char} {text : List Char} (hc : ' ' ≤ c ∧ c ≤ '~') (h : IsAscii text) :
    IsAscii (c :: text) :=
  List.forall_mem_cons.mpr ⟨hc, h⟩

theorem isAscii_flatMap {α : Type} {f : α → List Char} {xs : List α} (h : ∀ x ∈ xs, IsAscii (f x)) :
    IsAscii (xs.flatMap f) := by
  intro c hc
  obtain ⟨x, hx, inside⟩ := List.mem_flatMap.mp hc
  exact h x hx c inside

theorem isAscii_toDigits (n : Nat) : IsAscii (Nat.toDigits 10 n) := by
  intro c hc
  have digit := Nat.isDigit_of_mem_toDigits (by decide) (by decide) hc
  simp only [Char.isDigit, Bool.and_eq_true, decide_eq_true_eq] at digit
  exact ⟨Char.le_trans (by decide) digit.1, Char.le_trans digit.2 (by decide)⟩

theorem isAscii_decimal (n : Int) : IsAscii (decimal n) := by
  cases n with
  | ofNat n => exact isAscii_toDigits n
  | negSucc n => exact isAscii_cons (by decide) (isAscii_toDigits (n + 1))

theorem isAscii_escapeUnit (n : Nat) : IsAscii (escapeUnit n) := by
  have table : ∀ d < 16, ' ' ≤ Nat.digitChar d ∧ Nat.digitChar d ≤ '~' := by decide
  have digit (m : Nat) : ' ' ≤ hexDigit m ∧ hexDigit m ≤ '~' := table _ (Nat.mod_lt m (by decide))
  rw [escapeUnit]
  refine isAscii_cons (by decide) (isAscii_cons (by decide) ?_)
  exact isAscii_cons (digit _) (isAscii_cons (digit _) (isAscii_cons (digit _)
    (isAscii_cons (digit _) nofun)))

theorem isAscii_escape (c : Char) : IsAscii (escape c) := by
  rw [escape]
  split
  · decide
  split
  · decide
  split
  · decide
  split
  · decide
  split
  · decide
  split
  · decide
  split
  · decide
  split
  next plain => exact isAscii_cons plain nofun
  next => exact isAscii_flatMap fun n _ => isAscii_escapeUnit n

theorem isAscii_quote (s : String) : IsAscii (quote s) := by
  have inside := isAscii_flatMap fun c (_ : c ∈ s.toList) => isAscii_escape c
  rw [quote]
  exact isAscii_cons (by decide) (isAscii_append inside (by decide))

mutual

theorem isAscii_render : ∀ v : Json, IsAscii v.render
  | number n => by
      rw [render]
      exact isAscii_decimal n
  | string s => by
      rw [render]
      exact isAscii_quote s
  | array items => by
      rw [render]
      exact isAscii_cons (by decide) (isAscii_append (isAscii_renderItems items) (by decide))
  | object members => by
      rw [render]
      exact isAscii_cons (by decide) (isAscii_append (isAscii_renderMembers members) (by decide))

theorem isAscii_renderItems : ∀ items : List Json, IsAscii (renderItems items)
  | [] => nofun
  | [item] => isAscii_render item
  | item :: next :: items => by
      have others := isAscii_renderItems (next :: items)
      rw [renderItems]
      · exact isAscii_append (isAscii_render item)
          (isAscii_cons (by decide) (isAscii_cons (by decide) others))
      · exact nofun

theorem isAscii_renderMembers : ∀ members : List (String × Json), IsAscii (renderMembers members)
  | [] => nofun
  | [(key, item)] => by
      rw [renderMembers]
      exact isAscii_append (isAscii_quote key)
        (isAscii_cons (by decide) (isAscii_cons (by decide) (isAscii_render item)))
  | (key, item) :: next :: members => by
      have others := isAscii_renderMembers (next :: members)
      rw [renderMembers]
      · refine isAscii_append (isAscii_quote key)
          (isAscii_cons (by decide) (isAscii_cons (by decide) ?_))
        exact isAscii_append (isAscii_render item)
          (isAscii_cons (by decide) (isAscii_cons (by decide) others))
      · exact nofun

end

end Json

end PvsIndex
