import PvsIndex.Parse.State
import PvsIndex.Tree.ParseTree

/-!
# The parser's stack

Every symbol that has been read and not yet become part of a larger phrase
stands on the stack, with the trees it contributes and the state reached after
it.  `Stack.feed` offers the stack a lookahead.  Rules are recognised as long
as the state asks for it, and then the lookahead is taken, or there is no move
for it.  A refusal hands back the stack as the recognised rules have left it:
they stay recognised.

How many rules one lookahead can make recognised is bounded.  A rule with a
body of several symbols shortens the stack, and a chain of rules with one
symbol each never meets a phrase twice.  `Stack.patience` is that bound, and
`stuck` is the answer beyond it, or when a rule does not fit the stack, or when
the state below does not go on with the phrase.
-/

namespace PvsIndex

/-- A symbol that has been read, with what it contributes to the tree around it and
the state after reading it. -/
structure Frame where
  symbol : Symbol
  parts : List ParseTree
  state : State

/-- The symbols read so far, the latest first. -/
abbrev Stack := List Frame

/-- The answer to a lookahead: it has been read, or the text is complete and these
trees stand for it, or there is no move.  A machine that is stuck cannot go on. -/
inductive Answer where
  | taken (s : Stack)
  | accepted (trees : List ParseTree)
  | refused (s : Stack)
  | stuck

namespace Stack

/-- The current state. -/
def state : Stack → State
  | [] => .initial
  | f :: _ => f.state

/-- Read the symbol `x`, which contributes `parts`. -/
def push (s : Stack) (x : Symbol) (parts : List ParseTree) : Stack :=
  ⟨x, parts, s.state.goto x⟩ :: s

/-- Take the body of a rule off the stack, if the stack ends with it: what its
head contributes, and the stack below. -/
def unwind? (s : Stack) (r : Rule) : Option (List ParseTree × Stack) :=
  let popped := (s.take r.body.length).reverse
  if popped.map Frame.symbol = r.body then
    some (r.head.assemble (popped.flatMap Frame.parts), s.drop r.body.length)
  else none

/-- Enough steps for all rules that one lookahead makes recognised. -/
def patience (s : Stack) : Nat :=
  (s.length + 1) * (Nonterminal.all.length + 1)

/-- Offer the lookahead `a`, which contributes `leaf`, for at most `steps` steps. -/
def feedWithin (a : Lookahead) (leaf : List ParseTree) : Nat → Stack → Answer
  | 0, _ => .stuck
  | steps + 1, s =>
    match s.state.move? a with
    | none => .refused s
    | some (.shift t) => .taken (s.push t leaf)
    | some (.reduce r) =>
      match s.unwind? r with
      | none => .stuck
      | some (parts, below) =>
        if r.head = .start then .accepted parts
        else
          let reduced := below.push r.head parts
          if reduced.state.isEmpty then .stuck else feedWithin a leaf steps reduced

/-- Offer a lookahead. -/
def feed (s : Stack) (a : Lookahead) (leaf : List ParseTree) : Answer :=
  feedWithin a leaf s.patience s

end Stack

end PvsIndex
