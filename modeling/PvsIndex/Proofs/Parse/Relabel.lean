import PvsIndex.Proofs.Token.Solid
import PvsIndex.Proofs.Tree.Relabel

/-!
# Runs over other tokens

The parser never looks at the place of a token, nor at the trees on its stack.
So a run over pieces that stand elsewhere is the same run, with the same answers
and the same states: only the places in its account are others
(`Run.ofPieces_carry`).  Layout is passed over without a trace, and a run over
the solid pieces of a text meets the same faults as a run over all of them.

What is said about a fault depends on the place only through its line and its
column, and the message does not depend on it at all.  The two lemmas about
diagnostics at the end say so.
-/

namespace PvsIndex

/-! ## Stacks -/

/-- What a symbol contributes, with other tokens. -/
def Frame.relabel (f : Token → Token) (frame : Frame) : Frame :=
  { frame with parts := ParseTree.relabelAll f frame.parts }

/-- The answer with other tokens in it. -/
def Answer.relabel (f : Token → Token) : Answer → Answer
  | taken s => taken (s.map (Frame.relabel f))
  | accepted trees => accepted (ParseTree.relabelAll f trees)
  | refused s => refused (s.map (Frame.relabel f))
  | stuck => stuck

namespace Stack

/-- The stack with other tokens in its trees. -/
def relabel (f : Token → Token) (s : Stack) : Stack :=
  List.map (Frame.relabel f) s

variable (f : Token → Token)

@[simp] theorem state_relabel (s : Stack) : (s.relabel f).state = s.state := by
  cases s <;> rfl

theorem patience_relabel (s : Stack) : (s.relabel f).patience = s.patience := by
  simp [patience, relabel]

theorem push_relabel (s : Stack) (x : Symbol) (parts : List ParseTree) :
    (s.relabel f).push x (ParseTree.relabelAll f parts) = (s.push x parts).relabel f := by
  rw [push, state_relabel]
  rfl

/-- A rule takes the same symbols off the stack. -/
theorem unwind?_relabel (s : Stack) (r : Rule) :
    (s.relabel f).unwind? r =
      (s.unwind? r).map fun (parts, below) => (ParseTree.relabelAll f parts, below.relabel f) := by
  have symbols : (((s.relabel f).take r.body.length).reverse).map Frame.symbol =
      ((s.take r.body.length).reverse).map Frame.symbol := by
    rw [relabel, ← List.map_take, ← List.map_reverse, List.map_map]
    rfl
  have parts : (((s.relabel f).take r.body.length).reverse).flatMap Frame.parts =
      ParseTree.relabelAll f (((s.take r.body.length).reverse).flatMap Frame.parts) := by
    rw [relabel, ← List.map_take, ← List.map_reverse, List.flatMap_map,
      ParseTree.relabelAll_eq_map, List.map_flatMap]
    exact List.flatMap_congr fun frame _ => ParseTree.relabelAll_eq_map f frame.parts
  have below : (s.relabel f).drop r.body.length = Stack.relabel f (s.drop r.body.length) :=
    (List.map_drop ..).symm
  unfold unwind?
  simp only [symbols, parts, below, Nonterminal.assemble_relabelAll]
  split
  · rfl
  · rfl

theorem feedWithin_relabel (a : Lookahead) (leaf : List ParseTree) (steps : Nat) (s : Stack) :
    feedWithin a (ParseTree.relabelAll f leaf) steps (s.relabel f) =
      (feedWithin a leaf steps s).relabel f := by
  induction steps generalizing s with
  | zero => rfl
  | succ steps ih =>
      rw [feedWithin, feedWithin, state_relabel]
      cases s.state.move? a with
      | none => rfl
      | some move =>
          cases move with
          | shift t =>
              simp only [push_relabel]
              rfl
          | reduce r =>
              simp only [unwind?_relabel]
              cases s.unwind? r with
              | none => rfl
              | some popped =>
                  obtain ⟨parts, below⟩ := popped
                  simp only [Option.map_some, push_relabel, state_relabel]
                  split
                  · rfl
                  · split
                    · rfl
                    · exact ih _

/-- The same answer, whatever the tokens. -/
theorem feed_relabel (s : Stack) (a : Lookahead) (leaf : List ParseTree) :
    (s.relabel f).feed a (ParseTree.relabelAll f leaf) = (s.feed a leaf).relabel f := by
  rw [feed, feed, patience_relabel, feedWithin_relabel]

end Stack

/-! ## Other places -/

/-- The same token at the place to which its own is carried. -/
def Token.carry (move : Place → Place) (t : Token) : Token :=
  { t with start := move t.start }

/-- The same piece at the place to which its own is carried. -/
def Piece.carry (move : Place → Place) (q : Piece) : Piece :=
  q.moveTo (move q.start)

theorem Piece.map_carry_token (move : Place → Place) (ts : List Token) :
    (ts.map .token).map (Piece.carry move) = (ts.map (Token.carry move)).map .token := by
  rw [List.map_map, List.map_map]
  rfl

/-- A solid piece can be carried anywhere, if what is behind it is there. -/
theorem Yields.solid_carry (move : Place → Place) {q : Piece} {rest : List Char} {qs : List Piece}
    (solid : q.isSolid = true) (front : Fronts q rest)
    (behind : Yields ((move q.start).afterAll q.text) rest qs) :
    Yields (move q.start) (q.text ++ rest) (q.carry move :: qs) := by
  have start : (q.carry move).start = move q.start := Piece.start_moveTo _ _
  have text : (q.carry move).text = q.text := Piece.text_moveTo _ _
  rw [← start, ← text] at behind ⊢
  refine .solid ?_ (front.moveTo _) behind
  rw [Piece.carry, Piece.isSolid_moveTo, solid]

/-- The same event at the place to which its own is carried. -/
def Event.carry (move : Place → Place) : Event → Event
  | passed q => passed (q.carry move)
  | taken t => taken (t.carry move)
  | dropped t expected => dropped (t.carry move) expected
  | unreadable u => unreadable { u with place := move u.place }

/-- The ending with other tokens. -/
def Ending.relabel (f : Token → Token) : Ending → Ending
  | accepted trees => accepted (ParseTree.relabelAll f trees)
  | refused last expected => refused (last.map f) expected

namespace Run

/-- The same run at other places. -/
def carry (move : Place → Place) (r : Run) : Run :=
  ⟨r.events.map (Event.carry move), r.ending.relabel (Token.carry move)⟩

variable (move : Place → Place)

theorem step_carry (s : Stack) (q : Piece) :
    step (s.relabel (Token.carry move)) (q.carry move) =
      ((step s q).1.carry move, (step s q).2.relabel (Token.carry move)) := by
  cases q with
  | blank p text => rfl
  | comment p text => rfl
  | unreadable u => rfl
  | token t =>
      have answer := s.feed_relabel (Token.carry move) (.terminal t.terminal) [.leaf t]
      rw [show ParseTree.relabelAll (Token.carry move) [.leaf t] = [.leaf (t.carry move)] from rfl]
        at answer
      rw [show (Piece.token t).carry move = .token (t.carry move) from rfl, step, step,
        show (t.carry move).terminal = t.terminal from rfl, answer]
      cases s.feed (.terminal t.terminal) [.leaf t] with
      | taken s' => rfl
      | refused s' =>
          simp only [Answer.relabel]
          rw [← Stack.relabel, Stack.state_relabel]
          rfl
      | accepted trees => rfl
      | stuck => rfl

/-- Pieces that stand elsewhere are read in the same way. -/
theorem steps_carry (s : Stack) (qs : List Piece) :
    steps (s.relabel (Token.carry move)) (qs.map (Piece.carry move)) =
      ((steps s qs).1.map (Event.carry move), (steps s qs).2.relabel (Token.carry move)) := by
  induction qs generalizing s with
  | nil => rfl
  | cons q qs ih => simp only [List.map_cons, steps, step_carry, ih]

theorem finish_relabel (f : Token → Token) (s : Stack) (last : Option Token) :
    finish (s.relabel f) (last.map f) = (finish s last).relabel f := by
  have answer := s.feed_relabel f .endOfText []
  rw [show ParseTree.relabelAll f [] = [] from rfl] at answer
  rw [finish, finish, answer]
  cases s.feed .endOfText [] with
  | taken s' => rfl
  | refused s' =>
      simp only [Answer.relabel]
      rw [← Stack.relabel, Stack.state_relabel]
      rfl
  | accepted trees => rfl
  | stuck => rfl

/-- A run over pieces that stand elsewhere is the same run. -/
theorem ofPieces_carry (qs : List Piece) :
    ofPieces (qs.map (Piece.carry move)) = (ofPieces qs).carry move := by
  have read := steps_carry move [] qs
  have last : ((qs.map (Piece.carry move)).filterMap Piece.token?).getLast? =
      (qs.filterMap Piece.token?).getLast?.map (Token.carry move) := by
    rw [← List.getLast?_map, List.filterMap_map, List.map_filterMap]
    congr 1
    refine List.filterMap_congr fun q _ => ?_
    cases q <;> rfl
  rw [show Stack.relabel (Token.carry move) [] = [] from rfl] at read
  simp only [ofPieces, carry, read, last, finish_relabel]

/-! ## Layout -/

/-- Layout leaves no trace on the stack. -/
theorem steps_filter_isSolid (s : Stack) (qs : List Piece) :
    steps s (qs.filter Piece.isSolid) =
      ((steps s qs).1.filter fun e => e.piece.isSolid, (steps s qs).2) := by
  induction qs generalizing s with
  | nil => rfl
  | cons q qs ih =>
      have here : (step s q).1.piece = q := by
        have pieces := map_piece_steps s [q]
        exact List.head_eq_of_cons_eq pieces
      cases solid : q.isSolid with
      | true =>
          rw [List.filter_cons_of_pos solid]
          simp only [steps, ih]
          rw [List.filter_cons_of_pos (by rw [here, solid])]
      | false =>
          have passed : (step s q).2 = s := by
            cases q with
            | token t => cases solid
            | _ => rfl
          rw [List.filter_cons_of_neg (by simp [solid]), ih]
          simp only [steps, passed]
          rw [List.filter_cons_of_neg (by rw [here, solid]; exact Bool.false_ne_true)]

theorem filterMap_token?_filter_isSolid (qs : List Piece) :
    (qs.filter Piece.isSolid).filterMap Piece.token? = qs.filterMap Piece.token? := by
  rw [List.filterMap_filter]
  refine List.filterMap_congr fun q _ => ?_
  cases q <;> rfl

/-- Only what is solid can be at fault. -/
theorem diagnostics_solids (source : List Char) :
    (ofPieces (solids source)).diagnostics = (ofSource source).diagnostics := by
  have read := steps_filter_isSolid [] (scan source)
  simp only [ofSource, ofPieces, solids, read, filterMap_token?_filter_isSolid, diagnostics_eq_map,
    faults]
  congr 2
  rw [List.filterMap_filter]
  refine List.filterMap_congr fun e _ => ?_
  cases e with
  | passed q => cases q <;> rfl
  | _ => rfl

end Run

theorem parse_diagnostics_eq_solids (source : List Char) :
    (parse source).diagnostics = (Run.ofPieces (solids source)).diagnostics :=
  (parse_diagnostics source).trans (Run.diagnostics_solids source).symm

/-! ## What is said -/

theorem Mismatch.message_diagnostic (m : Mismatch) : m.diagnostic.message = m.message := by
  rw [diagnostic]
  split
  · rfl
  · rfl

/-- What is said about an ending. -/
def Ending.diagnostic? (e : Ending) : Option Diagnostic :=
  e.fault?.map Fault.diagnostic

/-- The place behind a text is on the same line and in the same column, wherever
these are counted from. -/
theorem Place.sameSpot_afterAll {p q : Place} (line : p.line = q.line)
    (column : p.column = q.column) (text : List Char) :
    (p.afterAll text).line = (q.afterAll text).line ∧
      (p.afterAll text).column = (q.afterAll text).column := by
  induction text generalizing p q with
  | nil => exact ⟨line, column⟩
  | cons c text ih =>
      refine ih ?_ ?_
      · unfold Place.after
        split
        · exact congrArg (· + 1) line
        · exact line
      · unfold Place.after
        split
        · rfl
        · exact congrArg (· + 1) column

namespace Run

variable {move : Place → Place}

/-- What does not change for the events and the ending of a run does not change
for its diagnostics. -/
theorem map_diagnostics_carry {α : Type} {view : Diagnostic → α} (r : Run)
    (event : ∀ e : Event, (e.carry move).diagnostic?.map view = e.diagnostic?.map view)
    (ending : ∀ e : Ending, (e.relabel (Token.carry move)).diagnostic?.map view =
      e.diagnostic?.map view) :
    (r.carry move).diagnostics.map view = r.diagnostics.map view := by
  have final := congrArg Option.toList (ending r.ending)
  simp only [Option.toList_map] at final
  rw [diagnostics_eq, diagnostics_eq, List.map_append, List.map_append, List.map_filterMap,
    List.map_filterMap, carry, List.filterMap_map]
  exact congrArg₂ (· ++ ·) (List.filterMap_congr fun e _ => event e) final

/-- Another place does not change a message. -/
theorem messages_carry (move : Place → Place) (r : Run) :
    (r.carry move).diagnostics.map Diagnostic.message = r.diagnostics.map Diagnostic.message := by
  refine r.map_diagnostics_carry ?_ ?_
  · intro e
    cases e with
    | dropped t expected =>
        simp only [Event.carry, Event.diagnostic?, Event.fault?, Option.map_some, Fault.diagnostic,
          Mismatch.message_diagnostic]
        rfl
    | _ => rfl
  · intro e
    cases e with
    | accepted trees => rfl
    | refused last expected =>
        simp only [Ending.relabel, Ending.diagnostic?, Ending.fault?, Option.map_some,
          Fault.diagnostic, Mismatch.message_diagnostic]
        rfl

/-- Another place on the same line and in the same column does not change what
is said. -/
theorem diagnostics_carry (line : ∀ p, (move p).line = p.line)
    (column : ∀ p, (move p).column = p.column) (r : Run) :
    (r.carry move).diagnostics = r.diagnostics := by
  have stop : ∀ t : Token, (t.carry move).stop.line = t.stop.line ∧
      (t.carry move).stop.column = t.stop.column := by
    intro t
    exact Place.sameSpot_afterAll (line t.start) (column t.start) t.text
  have same : (r.carry move).diagnostics.map id = r.diagnostics.map id := by
    refine r.map_diagnostics_carry ?_ ?_
    · intro e
      cases e with
      | passed q => rfl
      | taken t => rfl
      | unreadable u =>
          simp only [Event.carry, Event.diagnostic?, Event.fault?, line, column]
      | dropped t expected =>
          simp only [Event.carry, Event.diagnostic?, Event.fault?, stop]
          simp only [Token.carry, line, column]
    · intro e
      cases e with
      | accepted trees => rfl
      | refused last expected =>
          simp only [Ending.relabel, Ending.diagnostic?, Ending.fault?, Option.map_map,
            Function.comp_def, stop]
          simp only [Token.carry, line, column]
  simpa using same

end Run

end PvsIndex
