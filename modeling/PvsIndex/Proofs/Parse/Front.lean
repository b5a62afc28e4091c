import PvsIndex.Proofs.Parse.Recovery
import PvsIndex.Proofs.Parse.Relabel

/-!
# Tokens in front of an error

As long as tokens are read, there is nothing to tell but the stack they lead to
(`Stack.readAll?`).  The stack stands for what has been read, a verdict on the
whole text is the verdict from there on the rest, and so are its diagnostics
(`diagnostics_of_readAll?`).  A text can be looked at from the place where its
first error is.
-/

namespace PvsIndex

/-! ## Reading tokens -/

namespace Answer

/-- The stack after a lookahead that has been read. -/
def taken? : Answer → Option Stack
  | taken s => some s
  | _ => none

/-- The stack at a refusal. -/
def refused? : Answer → Option Stack
  | refused s => some s
  | _ => none

theorem taken?_eq_some {a : Answer} {s : Stack} : a.taken? = some s ↔ a = .taken s := by
  cases a <;> simp [taken?]

theorem refused?_eq_some {a : Answer} {s : Stack} : a.refused? = some s ↔ a = .refused s := by
  cases a <;> simp [refused?]

end Answer

namespace Stack

/-- The stack after some tokens, if every one of them is read. -/
def readAll? : Stack → List Token → Option Stack
  | s, [] => some s
  | s, t :: ts => (s.feed (.terminal t.terminal) [.leaf t]).taken?.bind fun s' => s'.readAll? ts

theorem readAll?_cons {s s' : Stack} {t : Token} (ts : List Token)
    (answer : s.feed (.terminal t.terminal) [.leaf t] = .taken s') :
    s.readAll? (t :: ts) = s'.readAll? ts := by
  rw [readAll?, answer]
  rfl

theorem readAll?_eq_some {s s₁ : Stack} {t : Token} {ts : List Token}
    (h : s.readAll? (t :: ts) = some s₁) :
    ∃ s', s.feed (.terminal t.terminal) [.leaf t] = .taken s' ∧ s'.readAll? ts = some s₁ := by
  obtain ⟨s', taken, rest⟩ := Option.bind_eq_some_iff.mp h
  exact ⟨s', Answer.taken?_eq_some.mp taken, rest⟩

theorem Stands.readAll? {s s' : Stack} {w ts : List Token} (h : s.Stands w)
    (read : s.readAll? ts = some s') : s'.Stands (w ++ ts) := by
  induction ts generalizing s w with
  | nil =>
      obtain rfl := Option.some.inj read
      rwa [List.append_nil]
  | cons t ts ih =>
      obtain ⟨s₁, answer, rest⟩ := readAll?_eq_some read
      rw [List.append_cons]
      exact ih (h.taken answer) rest

/-- A verdict goes on from where the first tokens lead. -/
theorem verdict_append {s s' : Stack} {w : List Token} (read : s.readAll? w = some s')
    (ts : List Token) : s.verdict (w ++ ts) = s'.verdict ts := by
  induction w generalizing s with
  | nil =>
      obtain rfl := Option.some.inj read
      rfl
  | cons t w ih =>
      obtain ⟨s₁, answer, rest⟩ := readAll?_eq_some read
      rw [List.cons_append, verdict, answer]
      exact ih rest

end Stack

/-! ## What is said about the rest -/

/-- Tokens that can be read are read one after the other, without a word said. -/
theorem Run.steps_readAll? {s s' : Stack} {w : List Token} (read : s.readAll? w = some s')
    (qs : List Piece) :
    Run.steps s (w.map .token ++ qs) =
      (w.map .taken ++ (Run.steps s' qs).1, (Run.steps s' qs).2) := by
  induction w generalizing s with
  | nil =>
      obtain rfl := Option.some.inj read
      rfl
  | cons t w ih =>
      obtain ⟨s₁, answer, rest⟩ := Stack.readAll?_eq_some read
      simp only [List.map_cons, List.cons_append, Run.steps, Run.step, answer, ih rest]

theorem filterMap_diagnostic?_taken (w : List Token) :
    (w.map Event.taken).filterMap Event.diagnostic? = [] := by
  rw [List.filterMap_map]
  exact List.filterMap_eq_nil_iff.mpr fun _ _ => rfl

/-- After tokens that can be read, the diagnostics are about what comes then. -/
theorem diagnostics_of_readAll? {source : List Char} {w rest : List Token} {s : Stack}
    (readable : tokenize source = .ok (w ++ rest))
    (read : Stack.readAll? [] w = some s) :
    (parse source).diagnostics =
      (Run.steps s (rest.map .token)).1.filterMap Event.diagnostic? ++
        ((Run.finish (Run.steps s (rest.map .token)).2 (w ++ rest).getLast?).fault?.map
          Fault.diagnostic).toList := by
  have tokens : ∀ ts : List Token, (ts.map Piece.token).filterMap Piece.token? = ts := by
    intro ts
    rw [List.filterMap_map]
    exact List.filterMap_some
  rw [parse_diagnostics_eq_solids, tokenize_eq_ok_iff.mp readable, Run.diagnostics_eq, Run.ofPieces,
    tokens, List.map_append, Run.steps_readAll? read, List.filterMap_append,
    filterMap_diagnostic?_taken, List.nil_append]

end PvsIndex
