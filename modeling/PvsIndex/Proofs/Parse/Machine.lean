import Mathlib.Data.List.Chain
import Mathlib.Logic.Relation
import PvsIndex.Proofs.Parse.Recovery
import PvsIndex.Proofs.Token.Solid

/-!
# The parser step by step

The parser is a machine with two stacks.  One has the states it has gone
through, with the initial state at the bottom; the other has what was read from
each state to the next.  Nothing ties the two together but the rules by which
the machine moves, and these can be in want of something: recognising a rule
needs as many entries as the rule has symbols, a state below them, and a way on
from that state.  A machine that has no step left and does not halt is stuck.

It never is.  `Tracks run s m` says that the two stacks are the columns of one
linked stack `s`, and that what has happened so far, together with what the
stack will make of the pending pieces, is the run of the whole text.  A step
keeps this and comes closer to the end (`Tracks.step`): it takes a piece off
the text, or it makes the stack lighter.  Everything else is read off it.
-/

namespace PvsIndex

open Relation (ReflTransGen)

/-! ## The machine -/

/-- The parser in the middle of a text: the states it has gone through and what was
read from each to the next, both with the latest first, what is still to be read,
and what has happened so far. -/
structure Machine where
  states : List State
  values : List (List ParseTree)
  pending : List Piece
  account : List Event

/-- The states, the latest first, are a path of the automaton from its initial
state: each comes from the one below by a symbol for which there is a way. -/
inductive IsPath : List State → Prop where
  | initial : IsPath [.initial]
  | read {s : State} {below : List State} (x : Symbol) :
      IsPath (s :: below) → (s.goto x).isEmpty = false → IsPath (s.goto x :: s :: below)

namespace Machine

/-- Before a text with these pieces. -/
def start (pieces : List Piece) : Machine :=
  ⟨[.initial], [], pieces, []⟩

/-- What stands ahead: a token, or the end once nothing is pending. -/
def ahead? (m : Machine) : Option Lookahead :=
  match m.pending with
  | [] => some .endOfText
  | .token t :: _ => some (.terminal t.terminal)
  | _ => none

/-- What the head of a rule contributes, if its body is on top. -/
def contribution (m : Machine) (r : Rule) : List ParseTree :=
  r.head.assemble (m.values.take r.body.length).reverse.flatten

/-- A rule is recognised on the lookahead `a`.  There have to be entries for its
body, a state below them, and a way on from there with its head. -/
inductive Reduces (a : Lookahead) : Machine → Machine → Prop where
  | mk {m : Machine} {s below : State} {r : Rule} :
      m.states.head? = some s → s.move? a = some (.reduce r) → r.head ≠ .start →
      r.body.length ≤ m.values.length → (m.states.drop r.body.length).head? = some below →
      (below.goto r.head).isEmpty = false →
        Reduces a m
          { m with
            states := below.goto r.head :: m.states.drop r.body.length
            values := m.contribution r :: m.values.drop r.body.length }

/-- One step of the parser. -/
inductive Step : Machine → Machine → Prop where
  | pass {m : Machine} {q : Piece} {qs : List Piece} :
      m.pending = q :: qs → q.isSolid = false →
        Step m { m with pending := qs, account := m.account ++ [.passed q] }
  | skip {m : Machine} {u : Unreadable} {qs : List Piece} :
      m.pending = .unreadable u :: qs →
        Step m { m with pending := qs, account := m.account ++ [.unreadable u] }
  | shift {m : Machine} {t : Token} {qs : List Piece} {s : State} :
      m.pending = .token t :: qs → m.states.head? = some s →
      s.move? (.terminal t.terminal) = some (.shift t.terminal) →
        Step m
          { states := s.goto t.terminal :: m.states
            values := [.leaf t] :: m.values
            pending := qs
            account := m.account ++ [.taken t] }
  | drop {m : Machine} {t : Token} {qs : List Piece} {s : State} :
      m.pending = .token t :: qs → m.states.head? = some s →
      s.move? (.terminal t.terminal) = none →
        Step m { m with pending := qs, account := m.account ++ [.dropped t s.expected] }
  | reduce {m m' : Machine} {a : Lookahead} :
      m.ahead? = some a → Reduces a m m' → Step m m'

/-- The end of the text is met, and this comes of it. -/
inductive Halts : Machine → Ending → Prop where
  | accepted {m : Machine} {s : State} {r : Rule} :
      m.pending = [] → m.states.head? = some s → s.move? .endOfText = some (.reduce r) →
      r.head = .start → m.states.drop r.body.length = [.initial] →
        Halts m (.accepted (m.contribution r))
  | refused {m : Machine} {s : State} :
      m.pending = [] → m.states.head? = some s → s.move? .endOfText = none →
        Halts m (.refused (met m.account).getLast? s.expected)

/-- What holds of the machine wherever it stands.  A rule that is to be recognised
finds its body (`fits`), and below it a way on; below the start rule is the bottom,
and the text is at its end.  Only so many rules are recognised one after the other
(`chains`), and every way on from here comes to an end (`ends`). -/
structure Sound (m : Machine) : Prop where
  path : IsPath m.states
  one_more : m.states.length = m.values.length + 1
  fits : ∀ {a : Lookahead} {s : State} {r : Rule}, m.states.head? = some s →
    s.move? a = some (.reduce r) → r.body.length ≤ m.values.length ∧
      ((r.head = .start ∧ a = .endOfText ∧ m.states.drop r.body.length = [.initial]) ∨
        ∃ below, (m.states.drop r.body.length).head? = some below ∧
          (below.goto r.head).isEmpty = false)
  end_not_read : ∀ {s : State} (t : Terminal), m.states.head? = some s →
    s.move? .endOfText ≠ some (.shift t)
  chains : ∀ (a : Lookahead) (chain : List Machine), (m :: chain).IsChain (Reduces a) →
    chain.length < m.states.length * (Nonterminal.all.length + 1)
  goes_on : (∃ m', Step m m') ∨ ∃ e, Halts m e
  ends : Acc (fun m' m => Step m m') m

end Machine

/-! ## The columns of a stack -/

namespace Stack

/-- The states of a stack, with the initial one at the bottom. -/
def states (s : Stack) : List State :=
  s.map Frame.state ++ [.initial]

theorem head?_states (s : Stack) : s.states.head? = some s.state := by
  cases s with
  | nil => rfl
  | cons f s => rfl

theorem length_states (s : Stack) : s.states.length = s.length + 1 := by
  rw [states, List.length_append, List.length_map, List.length_singleton]

theorem drop_states {s : Stack} {n : Nat} (h : n ≤ s.length) :
    s.states.drop n = Stack.states (s.drop n) := by
  rw [states, List.drop_append_of_le_length (by rwa [List.length_map]), ← List.map_drop]
  rfl

theorem Linked.isPath : ∀ {s : Stack}, Linked s → IsPath s.states
  | [], _ => .initial
  | [f], ⟨hf, full, _⟩ => by
      rw [hf] at full
      show IsPath [f.state, .initial]
      rw [hf]
      exact .read f.symbol .initial full
  | f :: g :: s, ⟨hf, full, hs⟩ => by
      have below : IsPath (g.state :: states s) := hs.isPath
      rw [hf] at full
      show IsPath (f.state :: g.state :: states s)
      rw [hf]
      exact .read f.symbol below full

end Stack

/-- The machine has the columns of a linked stack for its stacks. -/
structure Mirrors (m : Machine) (s : Stack) : Prop where
  states : m.states = s.states
  values : m.values = s.map Frame.parts
  linked : s.Linked

namespace Mirrors

variable {m : Machine} {s : Stack}

theorem head? (h : Mirrors m s) : m.states.head? = some s.state := by
  rw [h.states, s.head?_states]

theorem top_eq (h : Mirrors m s) {top : State} (htop : m.states.head? = some top) :
    top = s.state :=
  Option.some.inj (htop.symm.trans h.head?)

theorem contribution_eq (h : Mirrors m s) (r : Rule) : m.contribution r = s.contribution r := by
  rw [Machine.contribution, h.values, ← List.map_take, ← List.map_reverse]
  rfl

section Recognised

variable {a : Lookahead} {r : Rule}

theorem length_body_le (h : Mirrors m s) (move : s.state.move? a = some (.reduce r)) :
    r.body.length ≤ m.values.length := by
  rw [h.values, List.length_map]
  exact h.linked.length_body_le move

theorem drop_eq (h : Mirrors m s) (move : s.state.move? a = some (.reduce r)) :
    m.states.drop r.body.length = Stack.states (s.drop r.body.length) := by
  rw [h.states, Stack.drop_states (h.linked.length_body_le move)]

/-- The start rule is recognised at the end only, with nothing below it. -/
theorem start_rule (h : Mirrors m s) (move : s.state.move? a = some (.reduce r))
    (start : r.head = .start) : a = .endOfText ∧ m.states.drop r.body.length = [.initial] := by
  constructor
  · obtain ⟨_, _, follows, _⟩ := State.move?_reduce move
    rw [start] at follows
    cases a with
    | terminal t => exact absurd follows (Nonterminal.terminal_not_mem_follow_start t)
    | endOfText => rfl
  · rw [h.drop_eq move, h.linked.drop_eq_nil move start]
    rfl

/-- Any other rule finds a state below it, and a way on from there. -/
theorem way_on (h : Mirrors m s) (move : s.state.move? a = some (.reduce r))
    (inner : r.head ≠ .start) :
    ∃ below, (m.states.drop r.body.length).head? = some below ∧
      (below.goto r.head).isEmpty = false := by
  refine ⟨Stack.state (s.drop r.body.length), ?_, (h.linked.reduce move inner).2.1⟩
  rw [h.drop_eq move, Stack.head?_states]

/-- The machine can recognise what the stack can. -/
theorem reduces (h : Mirrors m s) (move : s.state.move? a = some (.reduce r))
    (inner : r.head ≠ .start) : ∃ m', m.Reduces a m' := by
  obtain ⟨below, exposed, full⟩ := h.way_on move inner
  exact ⟨_, .mk h.head? move inner (h.length_body_le move) exposed full⟩

/-- What the machine recognises, the stack does too. -/
theorem of_reduces {m' : Machine} (h : Mirrors m s) (step : m.Reduces a m') :
    ∃ r, s.state.move? a = some (.reduce r) ∧ r.head ≠ .start ∧ Mirrors m' (s.reduce r) ∧
      m'.pending = m.pending ∧ m'.account = m.account := by
  cases step with
  | @mk top below r htop move inner _ exposed _ =>
      obtain rfl := h.top_eq htop
      rw [h.drop_eq move, Stack.head?_states] at exposed
      obtain rfl := Option.some.inj exposed
      refine ⟨r, move, inner, ⟨?_, ?_, h.linked.reduce move inner⟩, rfl, rfl⟩
      · show _ :: m.states.drop r.body.length = _
        rw [h.drop_eq move]
        rfl
      · show m.contribution r :: m.values.drop r.body.length = _
        rw [h.contribution_eq r, h.values, ← List.map_drop]
        rfl

/-- Every rule recognised makes the stack lighter, so there are no more of them
in a row than it weighs. -/
theorem length_chain_le {chain : List Machine} (h : Mirrors m s)
    (row : (m :: chain).IsChain (Machine.Reduces a)) : chain.length ≤ s.weight := by
  induction chain generalizing m s with
  | nil => exact Nat.zero_le _
  | cons m' chain ih =>
      rw [List.isChain_cons_cons] at row
      obtain ⟨r, move, _, mirrors, _⟩ := h.of_reduces row.1
      have fewer := ih mirrors row.2
      have lighter := Stack.weight_reduce_lt h.linked move
      rw [List.length_cons]
      omega

end Recognised

end Mirrors

/-! ## Following a run -/

/-- The machine mirrors `s`, which spells the tokens kept so far, and on its way
it will have given the account of the run. -/
structure Tracks (run : Run) (s : Stack) (m : Machine) : Prop extends Mirrors m s where
  spells : s.Spells (kept m.account)
  events : run.events = m.account ++ (Run.steps s m.pending).1
  ending : run.ending = Run.finish (Run.steps s m.pending).2 (met run.events).getLast?

namespace Tracks

variable {run : Run} {s : Stack} {m : Machine}

theorem start (pieces : List Piece) : Tracks (.ofPieces pieces) [] (.start pieces) where
  states := rfl
  values := rfl
  linked := trivial
  spells := .nil
  events := rfl
  ending := by
    have tokens : met (Run.ofPieces pieces).events = pieces.filterMap Piece.token? :=
      met_steps [] pieces
    rw [tokens]
    rfl

theorem stands (h : Tracks run s m) : s.Stands (kept m.account) :=
  ⟨h.linked, h.spells⟩

/-- Recognising a rule does not change what becomes of the pending pieces. -/
theorem steps_reduce {w : List Token} {ps : List Piece} {a : Lookahead} {r : Rule}
    (hs : s.Stands w) (ahead : m.ahead? = some a) (pending : m.pending = ps)
    (move : s.state.move? a = some (.reduce r)) (inner : r.head ≠ .start) :
    (Run.steps s ps).1 = (Run.steps (s.reduce r) ps).1 ∧
      ∀ last,
        Run.finish (Run.steps s ps).2 last = Run.finish (Run.steps (s.reduce r) ps).2 last := by
  have same : ∀ leaf, s.feed a leaf = (s.reduce r).feed a leaf := by
    intro leaf
    rw [hs.linked.feed_eq]
    simp only [move, inner, if_false]
  rw [Machine.ahead?, pending] at ahead
  cases ps with
  | nil =>
      obtain rfl := Option.some.inj ahead
      refine ⟨rfl, fun last => ?_⟩
      show Run.finish s last = Run.finish (s.reduce r) last
      rw [Run.finish, Run.finish, same]
  | cons q qs =>
      cases q with
      | token t =>
          obtain rfl := Option.some.inj ahead
          have alike : Run.step s (.token t) = Run.step (s.reduce r) (.token t) := by
            rcases hs.feed_token t with ⟨s', answer, _⟩ | ⟨s', answer, _⟩
            · simp only [Run.step, ← same, answer]
            · simp only [Run.step, ← same, answer]
          rw [Run.steps, Run.steps, alike]
          exact ⟨rfl, fun _ => rfl⟩
      | blank p text => cases ahead
      | comment p text => cases ahead
      | unreadable u => cases ahead

/-- The machine is closer to the end: fewer pieces are pending, or the stack has
become lighter before the same pieces. -/
def Closer (m' : Machine) (s' : Stack) (m : Machine) (s : Stack) : Prop :=
  m'.pending.length < m.pending.length ∨ m'.pending = m.pending ∧ s'.weight < s.weight

/-- Reading a piece as the run does. -/
theorem read {q : Piece} {qs : List Piece} {e : Event} {s' : Stack} {m' : Machine}
    (h : Tracks run s m) (pending : m.pending = q :: qs) (here : Run.step s q = (e, s'))
    (mirrors : Mirrors m' s') (spells : s'.Spells (kept m.account ++ e.kept?.toList))
    (rest : m'.pending = qs) (account : m'.account = m.account ++ [e]) :
    Tracks run s' m' ∧ Closer m' s' m s := by
  have events := h.events
  have ending := h.ending
  rw [pending, Run.steps, here] at events ending
  refine ⟨⟨mirrors, ?_, ?_, ?_⟩, Or.inl ?_⟩
  · have more : kept (m.account ++ [e]) = kept m.account ++ e.kept?.toList := by
      rw [kept, List.filterMap_append, List.filterMap_cons]
      cases e.kept? <;> rfl
    rw [account, more]
    exact spells
  · rw [account, rest, events, List.append_assoc]
    rfl
  · rw [rest]
    exact ending
  · rw [rest, pending]
    exact Nat.lt_succ_self _

/-- A piece that leaves the stack as it is. -/
theorem pass {q : Piece} {qs : List Piece} {e : Event} (h : Tracks run s m)
    (pending : m.pending = q :: qs) (here : Run.step s q = (e, s)) (unkept : e.kept? = none) :
    ∃ s', Tracks run s' { m with pending := qs, account := m.account ++ [e] } ∧
      Closer { m with pending := qs, account := m.account ++ [e] } s' m s := by
  have spells : s.Spells (kept m.account ++ e.kept?.toList) := by
    rw [unkept]
    exact (List.append_nil _).symm ▸ h.spells
  exact ⟨s, h.read pending here ⟨h.states, h.values, h.linked⟩ spells rfl rfl⟩

/-- A step keeps to the run, and comes closer to its end. -/
theorem step {m' : Machine} (h : Tracks run s m) (moved : m.Step m') :
    ∃ s', Tracks run s' m' ∧ Closer m' s' m s := by
  cases moved with
  | @pass q qs pending layout =>
      have here : Run.step s q = (.passed q, s) := by
        cases q with
        | blank p text => rfl
        | comment p text => rfl
        | token t => cases layout
        | unreadable u => cases layout
      exact h.pass pending here rfl
  | @skip u qs pending => exact h.pass pending rfl rfl
  | @drop t qs top pending htop move =>
      obtain rfl := h.top_eq htop
      have answer : s.feed (.terminal t.terminal) [.leaf t] = .refused s := by
        rw [h.linked.feed_eq]
        simp only [move]
      have here : Run.step s (.token t) = (.dropped t s.state.expected, s) := by
        simp only [Run.step, answer]
      exact h.pass pending here rfl
  | @shift t qs top pending htop move =>
      obtain rfl := h.top_eq htop
      have answer : s.feed (.terminal t.terminal) [.leaf t] =
          .taken (s.push t.terminal [.leaf t]) := by
        rw [h.linked.feed_eq]
        simp only [move]
      have here : Run.step s (.token t) = (.taken t, s.push t.terminal [.leaf t]) := by
        simp only [Run.step, answer]
      have stands := h.stands.taken answer
      refine ⟨_, h.read pending here ⟨?_, ?_, stands.linked⟩ stands.spells rfl rfl⟩
      · show _ :: m.states = _
        rw [h.states]
        rfl
      · show [.leaf t] :: m.values = _
        rw [h.values]
        rfl
  | @reduce _ a ahead reduces =>
      obtain ⟨r, move, inner, mirrors, pending, account⟩ := h.of_reduces reduces
      have same := steps_reduce h.stands ahead rfl move inner
      refine ⟨s.reduce r, ⟨mirrors, ?_, ?_, ?_⟩, Or.inr ⟨pending, ?_⟩⟩
      · rw [account]
        exact h.spells.reduce h.linked move
      · rw [account, pending, ← same.1]
        exact h.events
      · rw [pending, ← same.2]
        exact h.ending
      · exact Stack.weight_reduce_lt h.linked move

/-- Where a run has got to, it is still that run. -/
theorem reached {m' : Machine} (h : Tracks run s m) (steps : ReflTransGen Machine.Step m m') :
    ∃ s', Tracks run s' m' := by
  induction steps with
  | refl => exact ⟨s, h⟩
  | tail _ one ih =>
      obtain ⟨s', tracks⟩ := ih
      obtain ⟨s'', tracks', _⟩ := tracks.step one
      exact ⟨s'', tracks'⟩

/-- There is a step, or the end has been met. -/
theorem goes_on (h : Tracks run s m) : (∃ m', m.Step m') ∨ ∃ e, m.Halts e := by
  cases pending : m.pending with
  | nil =>
      have ahead : m.ahead? = some .endOfText := by rw [Machine.ahead?, pending]
      cases move : s.state.move? .endOfText with
      | none => exact Or.inr ⟨_, .refused pending h.head? move⟩
      | some mv =>
          cases mv with
          | shift t =>
              obtain ⟨impossible, _⟩ := State.move?_shift move
              cases impossible
          | reduce r =>
              by_cases start : r.head = .start
              · exact Or.inr ⟨_, .accepted pending h.head? move start (h.start_rule move start).2⟩
              · obtain ⟨m', reduces⟩ := h.reduces move start
                exact Or.inl ⟨m', .reduce ahead reduces⟩
  | cons q qs =>
      cases q with
      | blank p text => exact Or.inl ⟨_, .pass pending rfl⟩
      | comment p text => exact Or.inl ⟨_, .pass pending rfl⟩
      | unreadable u => exact Or.inl ⟨_, .skip pending⟩
      | token t =>
          have ahead : m.ahead? = some (.terminal t.terminal) := by rw [Machine.ahead?, pending]
          cases move : s.state.move? (.terminal t.terminal) with
          | none => exact Or.inl ⟨_, .drop pending h.head? move⟩
          | some mv =>
              cases mv with
              | shift u =>
                  obtain ⟨same, _⟩ := State.move?_shift move
                  obtain rfl := Lookahead.terminal.inj same
                  exact Or.inl ⟨_, .shift pending h.head? move⟩
              | reduce r =>
                  have inner : r.head ≠ .start := by
                    intro start
                    cases (h.start_rule move start).1
                  obtain ⟨m', reduces⟩ := h.reduces move inner
                  exact Or.inl ⟨m', .reduce ahead reduces⟩

/-- A machine that halts has given the account of the run. -/
theorem of_halts {e : Ending} (h : Tracks run s m) (halts : m.Halts e) :
    m.account = run.events ∧ e = run.ending := by
  have finished : m.pending = [] → run.events = m.account ∧
      run.ending = Run.finish s (met m.account).getLast? := by
    intro pending
    have events := h.events
    have ending := h.ending
    rw [pending, Run.steps, List.append_nil] at events
    rw [pending, Run.steps, events] at ending
    exact ⟨events, ending⟩
  cases halts with
  | @accepted top r pending htop move start _ =>
      obtain rfl := h.top_eq htop
      obtain ⟨events, ending⟩ := finished pending
      have answer : s.feed .endOfText [] = .accepted (s.contribution r) := by
        rw [h.linked.feed_eq]
        simp only [move, start, if_true]
      refine ⟨events.symm, ?_⟩
      rw [ending, Run.finish, answer, h.contribution_eq]
  | @refused top pending htop move =>
      obtain rfl := h.top_eq htop
      obtain ⟨events, ending⟩ := finished pending
      have answer : s.feed .endOfText [] = .refused s := by
        rw [h.linked.feed_eq]
        simp only [move]
      refine ⟨events.symm, ?_⟩
      rw [ending, Run.finish, answer]

/-- Every way on comes to an end, since each step comes closer to it.  The outer
induction is on the number of pending pieces, the inner one on the weight of the
stack. -/
theorem ends (h : Tracks run s m) : Acc (fun m' m => Machine.Step m m') m := by
  induction pieces : m.pending.length using Nat.strongRecOn generalizing s m with
  | _ n outer =>
      induction weight : s.weight using Nat.strongRecOn generalizing s m with
      | _ k inner =>
          refine .intro m fun m' moved => ?_
          obtain ⟨s', tracks, fewer | ⟨same, lighter⟩⟩ := h.step moved
          · exact outer _ (pieces ▸ fewer) tracks rfl
          · exact inner _ (weight ▸ lighter) tracks (by rw [same, pieces]) rfl

/-- The run can be followed to its end. -/
theorem exists_halt (h : Tracks run s m) :
    ∃ final, ReflTransGen Machine.Step m final ∧ final.account = run.events ∧
      final.Halts run.ending := by
  induction h.ends generalizing s with
  | intro m _ ih =>
      rcases h.goes_on with ⟨m', moved⟩ | ⟨e, halts⟩
      · obtain ⟨s', tracks, _⟩ := h.step moved
        obtain ⟨final, steps, result⟩ := ih m' moved tracks
        exact ⟨final, .head moved steps, result⟩
      · obtain ⟨account, rfl⟩ := h.of_halts halts
        exact ⟨m, .refl, account, halts⟩

theorem sound (h : Tracks run s m) : m.Sound where
  path := by
    rw [h.states]
    exact h.linked.isPath
  one_more := by rw [h.states, h.values, Stack.length_states, List.length_map]
  fits := by
    intro a top r htop move
    obtain rfl := h.top_eq htop
    refine ⟨h.length_body_le move, ?_⟩
    by_cases start : r.head = .start
    · exact Or.inl ⟨start, h.start_rule move start⟩
    · exact Or.inr (h.way_on move start)
  end_not_read := by
    intro top t _ move
    obtain ⟨impossible, _⟩ := State.move?_shift move
    cases impossible
  chains := by
    intro a chain row
    have bound : s.weight < (s.length + 1) * (Nonterminal.all.length + 1) := s.weight_lt_patience
    rw [h.states, Stack.length_states]
    exact Nat.lt_of_le_of_lt (h.length_chain_le row) bound
  goes_on := h.goes_on
  ends := h.ends

end Tracks

/-! ## Every text -/

/-- The parser never gets stuck.  Wherever it stands in a text, its states are a
path of the automaton with one value between each and the next, a rule that is to
be recognised can be, and only so many are in a row; it goes on until the end,
and from everywhere it comes to the same end, which is what parsing reports. -/
theorem parser_never_stuck (source : List Char) :
    (∀ m, ReflTransGen Machine.Step (.start (scan source)) m →
      m.Sound ∧
        (∀ e, m.Halts e →
          m.account = (Run.ofSource source).events ∧ e = (Run.ofSource source).ending) ∧
        ∃ final, ReflTransGen Machine.Step m final ∧
          final.account = (Run.ofSource source).events ∧
          final.Halts (Run.ofSource source).ending) ∧
      ((∃ root ts, parse source = .tree root ts) ∨
        ∃ diagnostics, parse source = .rejected diagnostics ∧ diagnostics ≠ []) := by
  have begins : Tracks (Run.ofSource source) [] (.start (scan source)) := .start (scan source)
  constructor
  · intro m steps
    obtain ⟨s, tracks⟩ := begins.reached steps
    exact ⟨tracks.sound, fun e halts => tracks.of_halts halts, tracks.exists_halt⟩
  · by_cases clean : (parse source).diagnostics = []
    · exact Or.inl (parse_diagnostics_eq_nil_iff.mp clean)
    · exact Or.inr ⟨_, Parsed.eq_rejected clean, clean⟩

theorem parser_never_stuck_dollar :
    (Machine.start (scan "T T $".toList)).Sound ∧
      ∃ final, ReflTransGen Machine.Step (.start (scan "T T $".toList)) final ∧
        final.Halts (Run.ofSource "T T $".toList).ending := by
  obtain ⟨sound, _, final, steps, _, halts⟩ := (parser_never_stuck "T T $".toList).1 _ .refl
  exact ⟨sound, final, steps, halts⟩

end PvsIndex
