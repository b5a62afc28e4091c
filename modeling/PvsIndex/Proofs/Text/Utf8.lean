import Mathlib.Data.List.Forall2
import PvsIndex.Text.Utf8

/-!
# Bytes and the texts they stand for

Decoding goes by a table: the first byte of a sequence says which bytes may
follow.  Encoding goes by arithmetic: a character is cut into groups of six
bits.  The two have nothing in common but what they are for, and they are
inverse to each other (`decode_eq_ok_iff`): bytes can be decoded exactly if they
encode a text, and then to this text.

A sequence that the table admits is the encoding of its character, and the
encoding of a character is such a sequence (`encodes_iff`).  That is a matter of
arithmetic on each of the four lengths, where the ranges of the second byte are
what keeps the character in the range of its length and out of the surrogates.

Where decoding fails, the bytes before are the longest front that encodes a text
(`decode_eq_error`): no character is encoded at the front of what is left, and no
encoding of a character is the front of another.
-/

namespace PvsIndex

namespace Utf8

/-- The bytes of a text. -/
def encode (text : List Char) : List UInt8 :=
  text.flatMap String.utf8EncodeChar

theorem encode_cons (c : Char) (text : List Char) :
    encode (c :: text) = String.utf8EncodeChar c ++ encode text :=
  List.flatMap_cons

/-! ## The table -/

/-- The second bytes after a first byte of a sequence of three. -/
def secondOfThree (n : Nat) : ByteRange :=
  ⟨if n = 0xE0 then 0xA0 else 0x80, if n = 0xED then 0x9F else 0xBF⟩

/-- The second bytes after a first byte of a sequence of four. -/
def secondOfFour (n : Nat) : ByteRange :=
  ⟨if n = 0xF0 then 0x90 else 0x80, if n = 0xF4 then 0x8F else 0xBF⟩

/-- The table, by the length of the sequence. -/
inductive Leads (n : Nat) : Nat → List ByteRange → Prop where
  | one : n < 0x80 → Leads n n []
  | two : 0xC2 ≤ n → n < 0xE0 → Leads n (n - 0xC0) [tail]
  | three : 0xE0 ≤ n → n < 0xF0 → Leads n (n - 0xE0) [secondOfThree n, tail]
  | four : 0xF0 ≤ n → n < 0xF5 → Leads n (n - 0xF0) [secondOfFour n, tail, tail]

theorem Leads.lead?_eq {b : UInt8} {value : Nat} {ranges : List ByteRange}
    (h : Leads b.toNat value ranges) : lead? b = some (value, ranges) := by
  simp only [lead?]
  generalize b.toNat = n at h
  cases h with
  | one low => rw [if_pos low]
  | two low high => rw [if_neg (by omega), if_neg (by omega), if_pos high]
  | three low high =>
      rw [if_neg (by omega), if_neg (by omega), if_neg (by omega), secondOfThree]
      by_cases first : n = 0xE0
      · subst first
        rfl
      · by_cases surrogate : n = 0xED
        · subst surrogate
          rfl
        · rw [if_neg first, if_neg surrogate, if_pos high, if_neg first, if_neg surrogate]
          rfl
  | four low high =>
      rw [if_neg (by omega), if_neg (by omega), if_neg (by omega), if_neg (by omega),
        if_neg (by omega), if_neg (by omega), secondOfFour]
      by_cases first : n = 0xF0
      · subst first
        rfl
      · by_cases last : n = 0xF4
        · subst last
          rfl
        · rw [if_neg first, if_pos (by omega), if_neg first, if_neg last]
          rfl

theorem leads_of_lead? {b : UInt8} {value : Nat} {ranges : List ByteRange}
    (h : lead? b = some (value, ranges)) : Leads b.toNat value ranges := by
  have settle {value' : Nat} {ranges' : List ByteRange} (known : Leads b.toNat value' ranges') :
      Leads b.toNat value ranges := by
    obtain ⟨rfl, rfl⟩ := Prod.mk.inj (Option.some.inj (known.lead?_eq.symm.trans h))
    exact known
  by_cases one : b.toNat < 0x80
  · exact settle (.one one)
  by_cases tail : b.toNat < 0xC2
  · rw [lead?, if_neg one, if_pos tail] at h
    cases h
  by_cases two : b.toNat < 0xE0
  · exact settle (.two (by omega) two)
  by_cases three : b.toNat < 0xF0
  · exact settle (.three (by omega) three)
  by_cases four : b.toNat < 0xF5
  · exact settle (.four (by omega) four)
  rw [lead?, if_neg one, if_neg tail, if_neg two, if_neg (by omega), if_neg (by omega),
    if_neg three, if_neg (by omega), if_neg (by omega), if_neg (by omega)] at h
  cases h

/-! ## Sequences -/

/-- Six bits for each byte that follows. -/
def gather (value : Nat) (more : List UInt8) : Nat :=
  more.foldl (fun value b => value * 64 + (b.toNat - 0x80)) value

@[simp] theorem gather_nil (value : Nat) : gather value [] = value := rfl

@[simp] theorem gather_cons (value : Nat) (b : UInt8) (more : List UInt8) :
    gather value (b :: more) = gather (value * 64 + (b.toNat - 0x80)) more :=
  List.foldl_cons ..

/-- The table admits these bytes, and they stand for this number. -/
def IsSequence (b : UInt8) (more : List UInt8) (n : Nat) : Prop :=
  ∃ value ranges, Leads b.toNat value ranges ∧
    List.Forall₂ (fun range b => range.contains b = true) ranges more ∧ gather value more = n

theorem follow_eq_ok_iff {ranges : List ByteRange} : ∀ {value taken n : Nat} {bytes : List UInt8},
    follow value taken ranges bytes = .ok n ↔
      ∃ more rest, bytes = more ++ rest ∧
        List.Forall₂ (fun range b => range.contains b = true) ranges more ∧
        gather value more = n := by
  induction ranges with
  | nil =>
      intro value taken n bytes
      constructor
      · rintro ⟨⟩
        exact ⟨[], bytes, rfl, .nil, rfl⟩
      · rintro ⟨_, rest, rfl, nothing, rfl⟩
        cases nothing
        rfl
  | cons range ranges ih =>
      intro value taken n bytes
      cases bytes with
      | nil =>
          constructor
          · rintro ⟨⟩
          · rintro ⟨_, _, empty, fits, _⟩
            cases fits
            cases empty
      | cons b bytes =>
          rw [follow]
          by_cases inside : range.contains b = true
          · rw [if_pos inside, ih]
            constructor
            · rintro ⟨more, rest, rfl, fit, rfl⟩
              exact ⟨b :: more, rest, rfl, .cons inside fit, gather_cons ..⟩
            · rintro ⟨_, rest, split, fits, rfl⟩
              cases fits with
              | cons _ fit =>
                  obtain ⟨rfl, rfl⟩ := List.cons.inj split
                  exact ⟨_, rest, rfl, fit, (gather_cons ..).symm⟩
          · rw [if_neg inside]
            constructor
            · rintro ⟨⟩
            · rintro ⟨_, rest, split, fits, _⟩
              cases fits with
              | cons fit _ =>
                  obtain ⟨rfl, _⟩ := List.cons.inj split
                  exact absurd fit inside

/-! ## Encodings -/

section

variable {c : Char}

theorem encodeChar_one (high : c.toNat < 0x80) :
    String.utf8EncodeChar c = [UInt8.ofNat c.toNat] := by
  rw [Char.toNat] at *
  rw [String.utf8EncodeChar, if_pos (by omega)]

theorem encodeChar_two (low : 0x80 ≤ c.toNat) (high : c.toNat < 0x800) :
    String.utf8EncodeChar c =
      [UInt8.ofNat (c.toNat / 64 + 0xC0), UInt8.ofNat (c.toNat % 64 + 0x80)] := by
  rw [Char.toNat] at *
  rw [String.utf8EncodeChar, if_neg (by omega), if_pos (by omega),
    Nat.mod_eq_of_lt (show c.val.toNat / 64 < 32 by omega)]

theorem encodeChar_three (low : 0x800 ≤ c.toNat) (high : c.toNat < 0x10000) :
    String.utf8EncodeChar c =
      [UInt8.ofNat (c.toNat / 4096 + 0xE0), UInt8.ofNat (c.toNat / 64 % 64 + 0x80),
        UInt8.ofNat (c.toNat % 64 + 0x80)] := by
  rw [Char.toNat] at *
  rw [String.utf8EncodeChar, if_neg (by omega), if_neg (by omega), if_pos (by omega),
    Nat.mod_eq_of_lt (show c.val.toNat / 4096 < 16 by omega)]

theorem encodeChar_four (low : 0x10000 ≤ c.toNat) (high : c.toNat < 0x110000) :
    String.utf8EncodeChar c =
      [UInt8.ofNat (c.toNat / 262144 + 0xF0), UInt8.ofNat (c.toNat / 4096 % 64 + 0x80),
        UInt8.ofNat (c.toNat / 64 % 64 + 0x80), UInt8.ofNat (c.toNat % 64 + 0x80)] := by
  rw [Char.toNat] at *
  rw [String.utf8EncodeChar, if_neg (by omega), if_neg (by omega), if_neg (by omega),
    Nat.mod_eq_of_lt (show c.val.toNat / 262144 < 8 by omega)]

end

theorem ofNat_eq_of_toNat {b : UInt8} {n : Nat} (h : n = b.toNat) : UInt8.ofNat n = b := by
  rw [h, UInt8.ofNat_toNat]

theorem exists_byte {n : Nat} (h : n < 256) : ∃ b : UInt8, b.toNat = n :=
  ⟨UInt8.ofNat n, by rw [UInt8.toNat_ofNat', Nat.mod_eq_of_lt h]⟩

theorem contains_iff {range : ByteRange} {b : UInt8} :
    range.contains b = true ↔ range.low ≤ b.toNat ∧ b.toNat ≤ range.high := by
  simp [ByteRange.contains]

theorem tail_contains_iff {b : UInt8} : tail.contains b = true ↔ 0x80 ≤ b.toNat ∧ b.toNat ≤ 0xBF :=
  contains_iff

theorem secondOfThree_contains_iff {n : Nat} {b : UInt8} :
    (secondOfThree n).contains b = true ↔ (0x80 ≤ b.toNat ∧ b.toNat ≤ 0xBF) ∧
      (n = 0xE0 → 0xA0 ≤ b.toNat) ∧ (n = 0xED → b.toNat ≤ 0x9F) := by
  simp only [contains_iff, secondOfThree]
  split
  · split <;> omega
  · split <;> omega

theorem secondOfFour_contains_iff {n : Nat} {b : UInt8} :
    (secondOfFour n).contains b = true ↔ (0x80 ≤ b.toNat ∧ b.toNat ≤ 0xBF) ∧
      (n = 0xF0 → 0x90 ≤ b.toNat) ∧ (n = 0xF4 → b.toNat ≤ 0x8F) := by
  simp only [contains_iff, secondOfFour]
  split
  · split <;> omega
  · split <;> omega

/-- Every number that a sequence stands for is a character, and the sequence is
its encoding. -/
theorem IsSequence.encodes {b : UInt8} {more : List UInt8} {n : Nat} (h : IsSequence b more n) :
    n.isValidChar ∧ ∀ c : Char, c.toNat = n → String.utf8EncodeChar c = b :: more := by
  obtain ⟨value, ranges, leads, fits, rfl⟩ := h
  cases leads with
  | one high =>
      cases fits
      rw [gather_nil]
      refine ⟨Or.inl (by omega), fun c hc => ?_⟩
      rw [encodeChar_one (hc ▸ high), ofNat_eq_of_toNat hc]
  | two low high =>
      obtain _ | ⟨x, _ | _⟩ := fits
      rw [tail_contains_iff] at x
      rw [gather_cons, gather_nil]
      refine ⟨Or.inl (by omega), fun c hc => ?_⟩
      rw [encodeChar_two (by omega) (by omega)]
      congr 1
      · exact ofNat_eq_of_toNat (by omega)
      congr 1
      exact ofNat_eq_of_toNat (by omega)
  | three low high =>
      obtain _ | ⟨x, _ | ⟨y, _ | _⟩⟩ := fits
      rw [secondOfThree_contains_iff] at x
      rw [tail_contains_iff] at y
      rw [gather_cons, gather_cons, gather_nil]
      refine ⟨?_, fun c hc => ?_⟩
      · rw [Nat.isValidChar]
        omega
      rw [encodeChar_three (by omega) (by omega)]
      congr 1
      · exact ofNat_eq_of_toNat (by omega)
      congr 1
      · exact ofNat_eq_of_toNat (by omega)
      congr 1
      exact ofNat_eq_of_toNat (by omega)
  | four low high =>
      obtain _ | ⟨x, _ | ⟨y, _ | ⟨z, _ | _⟩⟩⟩ := fits
      rw [secondOfFour_contains_iff] at x
      rw [tail_contains_iff] at y z
      rw [gather_cons, gather_cons, gather_cons, gather_nil]
      refine ⟨?_, fun c hc => ?_⟩
      · rw [Nat.isValidChar]
        omega
      rw [encodeChar_four (by omega) (by omega)]
      congr 1
      · exact ofNat_eq_of_toNat (by omega)
      congr 1
      · exact ofNat_eq_of_toNat (by omega)
      congr 1
      · exact ofNat_eq_of_toNat (by omega)
      congr 1
      exact ofNat_eq_of_toNat (by omega)

/-- Every character has a sequence. -/
theorem exists_isSequence (c : Char) : ∃ b more, IsSequence b more c.toNat := by
  have valid : c.toNat < 0xD800 ∨ 0xDFFF < c.toNat ∧ c.toNat < 0x110000 := c.valid
  generalize c.toNat = n at valid
  by_cases one : n < 0x80
  · obtain ⟨b, hb⟩ := @exists_byte n (by omega)
    exact ⟨b, [], _, _, .one (by omega), .nil, by rw [gather_nil, hb]⟩
  obtain ⟨last, hlast⟩ := @exists_byte (n % 64 + 0x80) (by omega)
  have last_fits := (@tail_contains_iff last).mpr (by omega)
  by_cases two : n < 0x800
  · obtain ⟨b, hb⟩ := @exists_byte (n / 64 + 0xC0) (by omega)
    refine ⟨b, [last], _, _, .two (by omega) (by omega), .cons last_fits .nil, ?_⟩
    rw [gather_cons, gather_nil]
    omega
  obtain ⟨middle, hmiddle⟩ := @exists_byte (n / 64 % 64 + 0x80) (by omega)
  by_cases three : n < 0x10000
  · obtain ⟨b, hb⟩ := @exists_byte (n / 4096 + 0xE0) (by omega)
    have second := @secondOfThree_contains_iff b.toNat middle
    refine ⟨b, [middle, last], _, _, .three (by omega) (by omega),
      .cons (second.mpr (by omega)) (.cons last_fits .nil), ?_⟩
    rw [gather_cons, gather_cons, gather_nil]
    omega
  · obtain ⟨b, hb⟩ := @exists_byte (n / 262144 + 0xF0) (by omega)
    obtain ⟨x, hx⟩ := @exists_byte (n / 4096 % 64 + 0x80) (by omega)
    have second := @secondOfFour_contains_iff b.toNat x
    have third := @tail_contains_iff middle
    refine ⟨b, [x, middle, last], _, _, .four (by omega) (by omega),
      .cons (second.mpr (by omega)) (.cons (third.mpr (by omega)) (.cons last_fits .nil)), ?_⟩
    rw [gather_cons, gather_cons, gather_cons, gather_nil]
    omega

/-- The sequences are the encodings. -/
theorem encodes_iff {b : UInt8} {more : List UInt8} {c : Char} :
    String.utf8EncodeChar c = b :: more ↔ IsSequence b more c.toNat := by
  constructor
  · intro encoded
    obtain ⟨b', more', sequence⟩ := exists_isSequence c
    obtain ⟨rfl, rfl⟩ := List.cons.inj (encoded.symm.trans (sequence.encodes.2 c rfl))
    exact sequence
  · intro sequence
    exact sequence.encodes.2 c rfl

/-! ## Decoding -/

/-- What is read at the front is a character whose encoding is there. -/
theorem front_eq_ok_iff {b : UInt8} {bytes : List UInt8} {c : Char} {n : Nat} :
    front b bytes = .ok (c, n) ↔
      ∃ more rest, bytes = more ++ rest ∧ String.utf8EncodeChar c = b :: more ∧
        more.length = n := by
  constructor
  · intro read
    rw [front] at read
    split at read
    next => cases read
    next value ranges lead =>
        cases followed : follow value 1 ranges bytes with
        | error fault =>
            rw [followed] at read
            cases read
        | ok number =>
            rw [followed] at read
            cases read
            obtain ⟨more, rest, rfl, fits, rfl⟩ := follow_eq_ok_iff.mp followed
            have sequence : IsSequence b more _ := ⟨value, ranges, leads_of_lead? lead, fits, rfl⟩
            obtain ⟨valid, encodes⟩ := sequence.encodes
            refine ⟨more, rest, rfl, encodes _ ?_, fits.length_eq.symm⟩
            rw [Char.ofNat, dif_pos valid]
            rfl
  · rintro ⟨more, rest, rfl, encoded, rfl⟩
    obtain ⟨value, ranges, leads, fits, number⟩ := encodes_iff.mp encoded
    have followed : follow value 1 ranges (more ++ rest) = .ok c.toNat :=
      follow_eq_ok_iff.mpr ⟨more, rest, rfl, fits, number⟩
    rw [front, leads.lead?_eq]
    simp only [followed, Except.map, Char.ofNat_toNat, fits.length_eq]

/-- Bytes that belong to the character before are passed over. -/
theorem decodeFrom_append (position : Nat) (covered rest : List UInt8) :
    decodeFrom position covered.length (covered ++ rest) =
      decodeFrom (position + covered.length) 0 rest := by
  induction covered generalizing position with
  | nil => rfl
  | cons b covered ih =>
      rw [List.length_cons, List.cons_append, decodeFrom, ih (position + 1)]
      congr 1
      omega

/-- A character is decoded from its encoding, and the rest from behind it. -/
theorem decodeFrom_encodeChar (position : Nat) (c : Char) (rest : List UInt8) :
    decodeFrom position 0 (String.utf8EncodeChar c ++ rest) =
      (decodeFrom (position + (String.utf8EncodeChar c).length) 0 rest).map (c :: ·) := by
  cases encoded : String.utf8EncodeChar c with
  | nil => exact absurd encoded String.utf8EncodeChar_ne_nil
  | cons b more =>
      have read : front b (more ++ rest) = .ok (c, more.length) :=
        front_eq_ok_iff.mpr ⟨more, rest, rfl, encoded, rfl⟩
      have next : position + (b :: more).length = position + 1 + more.length := by
        rw [List.length_cons]
        omega
      rw [List.cons_append, decodeFrom, next]
      simp only [read, decodeFrom_append]

theorem decodeFrom_encode_append (text : List Char) (rest : List UInt8) : ∀ position : Nat,
    decodeFrom position 0 (encode text ++ rest) =
      (decodeFrom (position + (encode text).length) 0 rest).map (text ++ ·) := by
  induction text with
  | nil =>
      intro position
      show decodeFrom position 0 rest = (decodeFrom position 0 rest).map id
      cases decodeFrom position 0 rest with
      | ok others => rfl
      | error fault => rfl
  | cons c text ih =>
      intro position
      rw [encode_cons, List.append_assoc, decodeFrom_encodeChar, ih, Nat.add_assoc,
        ← List.length_append]
      cases decodeFrom (position + (String.utf8EncodeChar c ++ encode text).length) 0 rest with
      | ok others => rfl
      | error fault => rfl

theorem front_eq_ok_of_prefix {b : UInt8} {bytes : List UInt8} {c : Char}
    (h : String.utf8EncodeChar c <+: b :: bytes) : ∃ n, front b bytes = .ok (c, n) := by
  obtain ⟨rest, split⟩ := h
  cases encoded : String.utf8EncodeChar c with
  | nil => exact absurd encoded String.utf8EncodeChar_ne_nil
  | cons d more =>
      rw [encoded] at split
      obtain ⟨rfl, rfl⟩ := List.cons.inj split
      exact ⟨more.length, front_eq_ok_iff.mpr ⟨more, rest, rfl, encoded, rfl⟩⟩

/-- Where no character is encoded, decoding fails, unless it is at the end. -/
theorem decodeFrom_of_nothing {rest : List UInt8} (nothing : ∀ c, ¬ String.utf8EncodeChar c <+: rest)
    (position : Nat) :
    (rest = [] ∧ decodeFrom position 0 rest = .ok []) ∨
      ∃ fault, decodeFrom position 0 rest = .error fault ∧ fault.position = position := by
  cases rest with
  | nil => exact Or.inl ⟨rfl, rfl⟩
  | cons b bytes =>
      cases read : front b bytes with
      | ok taken =>
          obtain ⟨more, rest, rfl, encoded, _⟩ := front_eq_ok_iff.mp read
          exact absurd ⟨rest, by rw [encoded]; rfl⟩ (nothing taken.1)
      | error reason =>
          refine Or.inr ⟨⟨position, b, reason.1, reason.2⟩, ?_, rfl⟩
          rw [decodeFrom]
          simp only [read]

/-- All bytes encode a text, up to a place where no character is encoded. -/
theorem exists_encode_append (bytes : List UInt8) :
    ∃ text rest, bytes = encode text ++ rest ∧ ∀ c, ¬ String.utf8EncodeChar c <+: rest := by
  induction size : bytes.length using Nat.strongRecOn generalizing bytes with
  | _ n ih =>
      by_cases encoded : ∃ c, String.utf8EncodeChar c <+: bytes
      · obtain ⟨c, behind, rfl⟩ := encoded
        have taken := List.length_pos_of_ne_nil (@String.utf8EncodeChar_ne_nil c)
        have shorter : behind.length < n := by
          rw [← size, List.length_append]
          omega
        obtain ⟨text, rest, rfl, nothing⟩ := ih _ shorter behind rfl
        refine ⟨c :: text, rest, ?_, nothing⟩
        rw [encode_cons, List.append_assoc]
      · exact ⟨[], bytes, rfl, fun c front => encoded ⟨c, front⟩⟩

/-- Bytes are decoded up to the place where no character is encoded. -/
theorem decode_cases (bytes : List UInt8) :
    ∃ text rest, bytes = encode text ++ rest ∧ (∀ c, ¬ String.utf8EncodeChar c <+: rest) ∧
      ((rest = [] ∧ decode bytes = .ok text) ∨
        ∃ fault, decode bytes = .error fault ∧ fault.position = (encode text).length) := by
  obtain ⟨text, rest, rfl, nothing⟩ := exists_encode_append bytes
  refine ⟨text, rest, rfl, nothing, ?_⟩
  rw [decode, decodeFrom_encode_append, Nat.zero_add]
  rcases decodeFrom_of_nothing nothing (encode text).length with
    ⟨rfl, decoded⟩ | ⟨fault, failed, place⟩
  · rw [decoded]
    refine Or.inl ⟨rfl, ?_⟩
    show Except.ok (text ++ []) = Except.ok text
    rw [List.append_nil]
  · rw [failed]
    exact Or.inr ⟨fault, rfl, place⟩

/-- Bytes are decoded to the text that they encode, and if there is none they
are not. -/
theorem decode_eq_ok_iff {bytes : List UInt8} {text : List Char} :
    decode bytes = .ok text ↔ encode text = bytes := by
  constructor
  · intro decoded
    obtain ⟨front, rest, rfl, _, whole⟩ := decode_cases bytes
    rcases whole with ⟨rfl, read⟩ | ⟨fault, failed, _⟩
    · obtain rfl := Except.ok.inj (decoded.symm.trans read)
      rw [List.append_nil]
    · cases decoded.symm.trans failed
  · rintro rfl
    have decoded := decodeFrom_encode_append text [] 0
    rw [List.append_nil, decodeFrom] at decoded
    rw [decode, decoded]
    show Except.ok (text ++ []) = Except.ok text
    rw [List.append_nil]

/-! ## Where decoding fails -/

/-- Only one character is encoded at the front of some bytes. -/
theorem encodeChar_unique {bytes : List UInt8} {c d : Char}
    (hc : String.utf8EncodeChar c <+: bytes) (hd : String.utf8EncodeChar d <+: bytes) : c = d := by
  cases bytes with
  | nil => exact absurd (List.prefix_nil.mp hc) String.utf8EncodeChar_ne_nil
  | cons b bytes =>
      obtain ⟨_, first⟩ := front_eq_ok_of_prefix hc
      obtain ⟨_, second⟩ := front_eq_ok_of_prefix hd
      exact (Prod.mk.inj (Except.ok.inj (first.symm.trans second))).1

/-- A text that is encoded at the front of some bytes goes no further than one behind
which no character is encoded. -/
theorem encode_prefix_le {text : List Char} {rest : List UInt8}
    (nothing : ∀ c, ¬ String.utf8EncodeChar c <+: rest) : ∀ {other : List Char},
      encode other <+: encode text ++ rest → (encode other).length ≤ (encode text).length := by
  induction text with
  | nil =>
      intro other h
      cases other with
      | nil => exact Nat.le_refl _
      | cons c other =>
          rw [encode_cons] at h
          exact absurd ((List.prefix_append _ _).trans h) (nothing c)
  | cons d text ih =>
      intro other h
      cases other with
      | nil => exact Nat.zero_le _
      | cons c other =>
          rw [encode_cons, encode_cons, List.append_assoc] at h
          obtain rfl : c = d :=
            encodeChar_unique ((List.prefix_append _ _).trans h) (List.prefix_append _ _)
          have behind := ih ((List.prefix_append_right_inj _).mp h)
          rw [encode_cons, encode_cons, List.length_append, List.length_append]
          exact Nat.add_le_add_left behind _

/-- Decoding fails behind the longest front of the bytes that encodes a text. -/
theorem decode_eq_error {bytes : List UInt8} {fault : Fault} (h : decode bytes = .error fault) :
    (∃ text, encode text <+: bytes ∧ (encode text).length = fault.position) ∧
      ∀ text, encode text <+: bytes → (encode text).length ≤ fault.position := by
  obtain ⟨text, rest, rfl, nothing, whole⟩ := decode_cases bytes
  rcases whole with ⟨_, read⟩ | ⟨fault', failed, place⟩
  · cases h.symm.trans read
  · obtain rfl := Except.error.inj (h.symm.trans failed)
    refine ⟨⟨text, List.prefix_append _ _, place.symm⟩, fun other front => ?_⟩
    rw [place]
    exact encode_prefix_le nothing front

end Utf8

end PvsIndex
