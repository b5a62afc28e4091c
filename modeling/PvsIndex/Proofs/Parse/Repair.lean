import PvsIndex.Proofs.Parse.Recovery

/-!
# What recovery leaves is a text

If reading goes on to an accepted end, the tokens that were kept are a sentence,
whatever was dropped between them.  The stack stands for them
(`Recovers.stands`), and an accepted end means that what the stack stands for is
derived from `start`; no lookahead is mentioned in this, so it does not matter
that rules may have been recognised for the sake of a token that was dropped
afterwards.

They are a text as well: `spaced` writes them down with single blanks between
them, and scanning gives them back (`tokenize_spaced`).  So the repaired text is
accepted without a diagnostic.
-/

namespace PvsIndex

/-! ## Tokens with blanks between them -/

/-- The texts of tokens, with single blanks between them. -/
def spaced (ts : List Token) : List Char :=
  [' '].intercalate (ts.map Token.text)

/-- Tokens with single blanks between them.  The places do not matter. -/
def spacedPieces : List Token → List Piece
  | [] => []
  | [t] => [.token t]
  | t :: u :: ts => .token t :: .blank t.stop [' '] :: spacedPieces (u :: ts)

theorem allText_spacedPieces : ∀ ts : List Token, Piece.allText (spacedPieces ts) = spaced ts
  | [] => rfl
  | [t] => by simp [spacedPieces, spaced, Piece.text]
  | t :: u :: ts => by
      have rest := allText_spacedPieces (u :: ts)
      simp only [spacedPieces, Piece.allText_cons, rest, Piece.text, spaced, List.map_cons,
        List.intercalate_cons_cons]
      simp

theorem tokens_spacedPieces : ∀ ts : List Token, (spacedPieces ts).filterMap Piece.token? = ts
  | [] => rfl
  | [_] => rfl
  | t :: u :: ts => by
      have rest := tokens_spacedPieces (u :: ts)
      simp only [spacedPieces, List.filterMap_cons, Piece.token?, rest]

theorem isReadable_spacedPieces : ∀ {ts : List Token}, ∀ q ∈ spacedPieces ts, q.isReadable = true
  | [] => nofun
  | [t] => by simp [spacedPieces]
  | t :: u :: ts => by
      have rest := @isReadable_spacedPieces (u :: ts)
      simp only [spacedPieces, List.forall_mem_cons]
      exact ⟨rfl, rfl, rest⟩

theorem frontsAll_spacedPieces : ∀ {ts : List Token}, (∀ t ∈ ts, Fronts (.token t) []) →
    FrontsAll (spacedPieces ts) []
  | [], _ => trivial
  | [t], fronts => ⟨fronts t List.mem_cons_self, trivial⟩
  | t :: u :: ts, fronts => by
      rw [List.forall_mem_cons] at fronts
      have rest := frontsAll_spacedPieces fronts.2
      have next := fronts.2 u List.mem_cons_self
      refine ⟨fronts.1.gap (by decide) _, ?_, rest⟩
      obtain ⟨c, cs, text, nonblank⟩ := next.solid
      refine fronts_blank (by simp) (by decide) ?_ _
      have front : (Piece.allText (spacedPieces (u :: ts)) ++ []).head? = some c := by
        cases ts <;> simp [spacedPieces, Piece.text, text]
      rw [front]
      exact nonblank

theorem tokenize_spaced {ts : List Token} (fronts : ∀ t ∈ ts, Fronts (.token t) []) :
    ∃ us, tokenize (spaced ts) = .ok us ∧ us.map Token.word = ts.map Token.word := by
  rw [← allText_spacedPieces]
  refine ⟨_, (frontsAll_spacedPieces fronts).tokenize_eq isReadable_spacedPieces, ?_⟩
  rw [Piece.words_settle, tokens_spacedPieces]

/-! ## What was kept -/

theorem mem_met_of_mem_kept {events : List Event} {t : Token} (h : t ∈ kept events) :
    t ∈ met events := by
  obtain ⟨e, he, kept⟩ := List.mem_filterMap.mp h
  refine List.mem_filterMap.mpr ⟨e, he, ?_⟩
  cases e <;> cases kept
  rfl

/-- The end is accepted exactly if the last thing that is said is not about it. -/
theorem Run.accepted_iff {source : List Char} :
    (∃ trees, (ofSource source).ending = .accepted trees) ↔
      ∀ d ∈ (parse source).diagnostics.getLast?, d.isAtEnd = false := by
  obtain ⟨stack, run, _, ending⟩ := Run.recovers source
  rw [parse_diagnostics, diagnostics_eq]
  rcases finish_diagnostic stack (met (ofSource source).events).getLast? with
    ⟨trees, accepted, none⟩ | ⟨d, one, atEnd, _⟩
  · rw [← ending] at accepted none
    rw [none, List.append_nil]
    refine iff_of_true ⟨trees, accepted⟩ fun d hd => ?_
    exact run.not_isAtEnd d (List.mem_of_getLast? hd)
  · rw [← ending] at one
    rw [one, List.getLast?_concat]
    refine iff_of_false ?_ fun h => ?_
    · rintro ⟨trees, accepted⟩
      rw [accepted] at one
      cases one
    · rw [h d rfl] at atEnd
      cases atEnd

/-- What was kept on the way to an accepted end is a sentence. -/
theorem Run.derives_kept {source : List Char} {trees : List ParseTree}
    (h : (ofSource source).ending = .accepted trees) :
    Derives (.phrase .start) (kept (ofSource source).events) trees := by
  obtain ⟨stack, _, stands, ending⟩ := Run.recovers source
  have verdict := finish_eq_accepted_iff.mp (ending.symm.trans h)
  have derived := stands.linked.derives_of_verdict stands.spells verdict
  rwa [List.append_nil] at derived

theorem Run.fronts_kept (source : List Char) :
    ∀ t ∈ kept (ofSource source).events, Fronts (.token t) [] := by
  obtain ⟨_, run, _, _⟩ := Run.recovers source
  intro t ht
  obtain ⟨rest, front⟩ := run.fronts t (mem_met_of_mem_kept ht)
  exact @Fronts.truncate _ [] _ front rfl

/-- The tokens that were kept are a sentence, and written down again they are a
text with no fault. -/
theorem recovery_repairs_text (source : List Char)
    (h : ∀ d ∈ (parse source).diagnostics.getLast?, d.isAtEnd = false) :
    (∃ trees, Reads (.symbol (.phrase .start)) (kept (Run.ofSource source).events) trees) ∧
      (∃ us, tokenize (spaced (kept (Run.ofSource source).events)) = .ok us ∧
        us.map Token.word = (kept (Run.ofSource source).events).map Token.word) ∧
      (parse (spaced (kept (Run.ofSource source).events))).diagnostics = [] := by
  obtain ⟨trees, accepted⟩ := Run.accepted_iff.mpr h
  have sentence := Run.derives_kept accepted
  obtain ⟨us, tokens, words⟩ := tokenize_spaced (Run.fronts_kept source)
  refine ⟨⟨trees, reads_iff_derives.mpr sentence⟩, ⟨us, tokens, words⟩, ?_⟩
  obtain ⟨_, again⟩ := sentence.of_terminals (Token.terminals_of_words words)
  obtain ⟨_, root, _, _, parsed⟩ := parse_eq_tree_of_reads tokens (reads_iff_derives.mpr again)
  rw [parsed, Parsed.diagnostics]

/-- A theory with a comma where none fits. -/
def commaTheory : List Char :=
  "a: THEORY , BEGIN END a".toList

/-- The comma is dropped, and the end is accepted. -/
theorem commaTheory_run :
    (Run.ofSource commaTheory).ending.fault?.isNone = true ∧
      spaced (kept (Run.ofSource commaTheory).events) = "a : THEORY BEGIN END a".toList := by
  decide +kernel

theorem recovery_repairs_commaTheory :
    (parse "a : THEORY BEGIN END a".toList).diagnostics = [] := by
  obtain ⟨no_fault, text⟩ := commaTheory_run
  have accepted : ∃ trees, (Run.ofSource commaTheory).ending = .accepted trees := by
    cases ending : (Run.ofSource commaTheory).ending with
    | accepted trees => exact ⟨trees, rfl⟩
    | refused last expected =>
        rw [ending] at no_fault
        cases no_fault
  rw [← text]
  exact (recovery_repairs_text commaTheory (Run.accepted_iff.mp accepted)).2.2

end PvsIndex
