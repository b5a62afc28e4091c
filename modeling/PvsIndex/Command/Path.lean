/-!
# Paths of files

A path is an anchor and the names that lead from it.  Empty names and single
dots say nothing and are dropped when a path is read; double dots stay, since
what they mean is up to the folders.  Exactly two leading slashes are an anchor
of their own, any other number is the root.
-/

namespace PvsIndex

/-- Where a path starts: at the working folder, or at the root, which can be written
with two slashes. -/
inductive Anchor where
  | here
  | root
  | doubleRoot
deriving DecidableEq

/-- The slashes of an anchor. -/
def Anchor.text : Anchor → List Char
  | here => []
  | root => ['/']
  | doubleRoot => ['/', '/']

/-- A path without empty parts: where it starts, and the names that lead from
there. -/
structure Path where
  anchor : Anchor
  names : List (List Char)
deriving DecidableEq

namespace Path

/-- The anchor that a number of leading slashes means. -/
def anchorOf : Nat → Anchor
  | 0 => .here
  | 2 => .doubleRoot
  | _ => .root

/-- Cut a text at every slash. -/
def splitSlash : List Char → List (List Char)
  | [] => [[]]
  | c :: cs =>
    if c = '/' then [] :: splitSlash cs
    else
      match splitSlash cs with
      | name :: names => (c :: name) :: names
      | [] => [[c]]

/-- Read a path. -/
def ofText (text : List Char) : Path :=
  ⟨anchorOf (text.takeWhile (· = '/')).length,
    (splitSlash text).filter fun name => name ≠ [] && name ≠ ['.']⟩

/-- Join names by slashes. -/
def joinNames : List (List Char) → List Char
  | [] => []
  | [name] => name
  | name :: names => name ++ '/' :: joinNames names

/-- The text of a path; the empty path is a single dot. -/
def text (p : Path) : List Char :=
  match p.anchor.text ++ joinNames p.names with
  | [] => ['.']
  | cs => cs

/-- The text of a path. -/
def toString (p : Path) : String :=
  String.ofList p.text

end Path

end PvsIndex
