/-!
# UTF-8

Reading a text from bytes.  Only the shortest encodings of Unicode scalar
values are accepted.  The first byte of a sequence says which bytes may follow
(`Utf8.lead?`): overlong forms, surrogates and numbers beyond the last
character are all ruled out by the range of the second byte, so nothing has to
be checked afterwards.

Where a sequence goes wrong, the fault covers the longest front of it that was
still right.
-/

namespace PvsIndex

namespace Utf8

/-- Why bytes cannot be read: no sequence starts with the first of them, a byte of the
sequence is out of its range, or the bytes end inside the sequence. -/
inductive Reason where
  | start
  | continuation
  | truncated
deriving DecidableEq

/-- The wording of a reason. -/
def Reason.message : Reason → String
  | start => "invalid start byte"
  | continuation => "invalid continuation byte"
  | truncated => "unexpected end of data"

/-- The bytes that cannot be read: how many come before, the first of them, and how
many they are. -/
structure Fault where
  position : Nat
  byte : UInt8
  length : Nat
  reason : Reason
deriving DecidableEq

/-- Two hexadecimal digits. -/
def hexByte (b : UInt8) : String :=
  String.ofList [Nat.digitChar (b.toNat / 16), Nat.digitChar (b.toNat % 16)]

/-- The wording of a fault. -/
def Fault.message (f : Fault) : String :=
  let place :=
    if f.length = 1 then
      "byte 0x" ++ hexByte f.byte ++ " in position " ++ toString f.position
    else
      "bytes in position " ++ toString f.position ++ "-" ++ toString (f.position + f.length - 1)
  "'utf-8' codec can't decode " ++ place ++ ": " ++ f.reason.message

/-- A range of bytes, both ends included. -/
structure ByteRange where
  low : Nat
  high : Nat

/-- Is a byte in the range? -/
def ByteRange.contains (r : ByteRange) (b : UInt8) : Bool :=
  r.low ≤ b.toNat && b.toNat ≤ r.high

/-- The bytes that go on a sequence. -/
def tail : ByteRange := ⟨0x80, 0xBF⟩

/-- What the first byte of a sequence says: the leading bits of the character,
and the ranges of the bytes that have to follow. -/
def lead? (b : UInt8) : Option (Nat × List ByteRange) :=
  let n := b.toNat
  if n < 0x80 then some (n, [])
  else if n < 0xC2 then none
  else if n < 0xE0 then some (n - 0xC0, [tail])
  else if n = 0xE0 then some (0, [⟨0xA0, 0xBF⟩, tail])
  else if n = 0xED then some (0xD, [⟨0x80, 0x9F⟩, tail])
  else if n < 0xF0 then some (n - 0xE0, [tail, tail])
  else if n = 0xF0 then some (0, [⟨0x90, 0xBF⟩, tail, tail])
  else if n < 0xF4 then some (n - 0xF0, [tail, tail, tail])
  else if n = 0xF4 then some (4, [⟨0x80, 0x8F⟩, tail, tail])
  else none

/-- Go on with a sequence of which `taken` bytes have been read as `value`: the
number of the whole character, or how many bytes were right and what was not. -/
def follow (value taken : Nat) : List ByteRange → List UInt8 → Except (Nat × Reason) Nat
  | [], _ => .ok value
  | _ :: _, [] => .error (taken, .truncated)
  | r :: ranges, b :: bytes =>
    if r.contains b then follow (value * 64 + (b.toNat - 0x80)) (taken + 1) ranges bytes
    else .error (taken, .continuation)

/-- The character at the front of `b :: bytes`, with the number of bytes that
follow its first; or how many bytes are at fault, and why. -/
def front (b : UInt8) (bytes : List UInt8) : Except (Nat × Reason) (Char × Nat) :=
  match lead? b with
  | none => .error (1, .start)
  | some (value, ranges) =>
    (follow value 1 ranges bytes).map fun n => (Char.ofNat n, ranges.length)

/-- Decoding from a position inside the bytes, when the next `covered` bytes
already belong to the character before. -/
def decodeFrom (position covered : Nat) : List UInt8 → Except Fault (List Char)
  | [] => .ok []
  | b :: bytes =>
    match covered with
    | n + 1 => decodeFrom (position + 1) n bytes
    | 0 =>
      match front b bytes with
      | .ok (c, n) => (decodeFrom (position + 1) n bytes).map (c :: ·)
      | .error (length, reason) => .error ⟨position, b, length, reason⟩

/-- The text that bytes stand for. -/
def decode (bytes : List UInt8) : Except Fault (List Char) :=
  decodeFrom 0 0 bytes

end Utf8

end PvsIndex
