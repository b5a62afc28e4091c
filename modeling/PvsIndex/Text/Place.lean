/-!
# Places: where a character stands in a text

A text is a list of characters.  A place counts them: how many come before
(`offset`, from zero), on which line we are and in which column (both from
one).  Only a line feed starts a new line; a carriage return, a tab or a form
feed is one more column like any letter.

The whole position bookkeeping of the library is `Place.after`, folded over
the characters that have been passed.  Reports and indexes count the characters
of a line from zero, which is `Place.character`.
-/

namespace PvsIndex

/-- A place in a text: the characters before it, and its line and column, both counted
from one. -/
structure Place where
  offset : Nat
  line : Nat
  column : Nat
deriving DecidableEq

namespace Place

/-- Where every text begins. -/
def start : Place := ⟨0, 1, 1⟩

/-- The character of a place on its line, counted from zero. -/
def character (p : Place) : Int :=
  p.column - 1

/-- The place just past the character `c` that stands at `p`. -/
def after (p : Place) (c : Char) : Place :=
  if c = '\n' then ⟨p.offset + 1, p.line + 1, 1⟩ else ⟨p.offset + 1, p.line, p.column + 1⟩

/-- The place just past the whole of `text`, which starts at `p`. -/
def afterAll (p : Place) (text : List Char) : Place :=
  text.foldl after p

@[simp] theorem afterAll_nil (p : Place) : p.afterAll [] = p := rfl

@[simp] theorem afterAll_cons (p : Place) (c : Char) (text : List Char) :
    p.afterAll (c :: text) = (p.after c).afterAll text := rfl

theorem afterAll_append (p : Place) (xs ys : List Char) :
    p.afterAll (xs ++ ys) = (p.afterAll xs).afterAll ys := by
  simp [afterAll, List.foldl_append]

@[simp] theorem offset_after (p : Place) (c : Char) : (p.after c).offset = p.offset + 1 := by
  unfold after; split <;> rfl

/-- Offsets count characters, whatever they are. -/
theorem offset_afterAll (p : Place) (text : List Char) :
    (p.afterAll text).offset = p.offset + text.length := by
  induction text generalizing p with
  | nil => rfl
  | cons c text ih => rw [afterAll_cons, ih, offset_after, List.length_cons]; omega

end Place

end PvsIndex
