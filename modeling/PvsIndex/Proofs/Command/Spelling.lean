import Mathlib.Data.List.Infix
import PvsIndex.Proofs.Command.Outcome

/-!
# How flags are written

A call of the command names one source and asks for flags.  What it comes to is
decided by which flags it asks for: not by how they are shortened, how often they
stand there or where they stand.

What counts as a spelling of a flag is said without reading arguments
(`Flag.SpelledBy`): a front of what is written in full that no other flag has.  The
first stage of the reading takes these texts, and no others, for a flag without a
value (`Argument.classify_eq_flag_iff`).  The second stage is an induction over the
call.  It is carried by the source taken so far together with the words still to
come, which are one source at every step (`Calls.exists_consume`).
-/

namespace PvsIndex

/-! ## Spellings -/

namespace Flag

/-- The text is a front of a spelling of the flag, and of no spelling of another. -/
def SpelledBy (f : Flag) (text : List Char) : Prop :=
  (∃ s ∈ f.spellings, text <+: s.toList) ∧
    ∀ entry ∈ table, text <+: entry.1.toList → entry.2 = f

instance (f : Flag) (text : List Char) : Decidable (f.SpelledBy text) :=
  inferInstanceAs (Decidable (_ ∧ _))

/-- The spelling with two dashes and nothing left out. -/
def fullSpelling : Flag → List Char
  | help => "--help".toList
  | test => "--test".toList
  | json => "--json".toList
  | reportDuplicates => "--report-duplicates".toList

theorem mem_table_iff {s : String} {f : Flag} : (s, f) ∈ table ↔ s ∈ f.spellings := by
  rw [table, List.mem_flatMap]
  constructor
  · rintro ⟨g, _, among⟩
    obtain ⟨s', written, same⟩ := List.mem_map.mp among
    cases same
    exact written
  · intro written
    exact ⟨f, by cases f <;> decide, List.mem_map_of_mem written⟩

variable {f : Flag} {text : List Char}

theorem spelledBy_fullSpelling (f : Flag) : f.SpelledBy f.fullSpelling := by
  cases f <;> decide +kernel

theorem spelledBy_of_ofSpelling? (h : ofSpelling? text = some f) : f.SpelledBy text := by
  have all : ∀ entry ∈ table, entry.2.SpelledBy entry.1.toList := by decide +kernel
  obtain ⟨entry, found, rfl⟩ := Option.map_eq_some_iff.mp h
  have written := List.find?_some found
  rw [← of_decide_eq_true written]
  exact all entry (List.mem_of_find?_eq_some found)

/-- The separator is a front of every long spelling, so it spells no flag. -/
theorem SpelledBy.ne_separator (h : f.SpelledBy text) : text ≠ ['-', '-'] := by
  rintro rfl
  revert h
  cases f <;> decide

end Flag

/-! ## What one argument is -/

namespace Argument

/-- A text without a value behind it is not cut. -/
theorem cutAtEquals_fst {text : List Char} (whole : (cutAtEquals text).2 = none) :
    (cutAtEquals text).1 = text := by
  have nothing : text.dropWhile (· ≠ '=') = [] := by
    cases behind : text.dropWhile (· ≠ '=') with
    | nil => rfl
    | cons c cs =>
        rw [cutAtEquals, behind] at whole
        cases whole
  have all := List.takeWhile_append_dropWhile (p := (· ≠ '=')) (l := text)
  rw [nothing, List.append_nil] at all
  exact all

section

variable {f : Flag} {long : Bool} {text : List Char} {s : String}

/-- Every spelling that the text is a front of makes a candidate. -/
theorem exists_mem_candidates (written : s ∈ f.spellings) (front : text <+: s.toList) :
    ∃ long value, (s, .flag f long value) ∈ candidates text := by
  have among := Flag.mem_table_iff.mpr written
  rw [candidates]
  split
  · have cut : (cutAtEquals text).1 <+: s.toList := (List.takeWhile_prefix _).trans front
    refine ⟨true, (cutAtEquals text).2, List.mem_map.mpr ⟨(s, f), ?_, rfl⟩⟩
    exact List.mem_filter.mpr ⟨among, List.isPrefixOf_iff_prefix.mpr cut⟩
  · simp only [shortCandidates, List.mem_filterMap]
    by_cases short : s.toList = text.take 2
    · exact ⟨false, some (text.drop 2), (s, f), among, if_pos short⟩
    · refine ⟨false, none, (s, f), among, ?_⟩
      rw [if_neg short, if_pos (List.isPrefixOf_iff_prefix.mpr front)]

/-- A candidate without a value is there for a spelling that the text is a front of. -/
theorem front_of_mem_candidates (h : (s, .flag f long none) ∈ candidates text) :
    s ∈ f.spellings ∧ text <+: s.toList ∧ long = isLong text := by
  rw [candidates] at h
  split at h
  case isTrue dashes =>
    obtain ⟨⟨s', f'⟩, among, same⟩ := List.mem_map.mp h
    obtain ⟨rfl, flag⟩ := Prod.mk.inj same
    obtain ⟨rfl, rfl, whole⟩ := Argument.flag.inj flag
    obtain ⟨among, cut⟩ := List.mem_filter.mp among
    have front : (cutAtEquals text).1 <+: s'.toList := List.isPrefixOf_iff_prefix.mp cut
    rw [cutAtEquals_fst whole] at front
    exact ⟨Flag.mem_table_iff.mp among, front, dashes.symm⟩
  case isFalse dash =>
    obtain ⟨⟨s', f'⟩, among, read⟩ := List.mem_filterMap.mp h
    dsimp only at read
    split at read
    case isTrue => cases read
    case isFalse =>
      split at read
      case isTrue front =>
        cases read
        exact ⟨Flag.mem_table_iff.mp among, List.isPrefixOf_iff_prefix.mp front,
          (Bool.eq_false_iff.mpr dash).symm⟩
      case isFalse => cases read

theorem spelledBy_of_candidates (only : candidates text = [(s, .flag f long none)]) :
    f.SpelledBy text ∧ long = isLong text := by
  have among : (s, .flag f long none) ∈ candidates text := only ▸ List.mem_singleton_self _
  obtain ⟨written, front, dashes⟩ := front_of_mem_candidates among
  refine ⟨⟨⟨s, written, front⟩, ?_⟩, dashes⟩
  rintro ⟨s', f'⟩ among' front'
  obtain ⟨long', value', other⟩ := exists_mem_candidates (Flag.mem_table_iff.mp among') front'
  rw [only, List.mem_singleton] at other
  exact (Argument.flag.inj (Prod.mk.inj other).2).1

theorem fallback_ne_flag (text : List Char) (value : Option (List Char)) :
    fallback text ≠ .flag f long value := by
  rw [fallback]
  split
  · nofun
  · nofun

theorem spelledBy_of_classifyDashed (h : classifyDashed text = .ok (.flag f long none)) :
    f.SpelledBy text ∧ long = isLong text := by
  unfold classifyDashed at h
  dsimp only at h
  split at h
  case h_1 g full =>
    cases h
    exact ⟨Flag.spelledBy_of_ofSpelling? full, rfl⟩
  case h_2 g other front =>
    -- without a value there is nothing cut off, and the whole text was no spelling
    have whole : (cutAtEquals text).2 = none := (Argument.flag.inj (Except.ok.inj h)).2.2
    rw [cutAtEquals_fst whole, other] at front
    cases front
  case h_3 =>
    split at h
    case h_1 => exact absurd (Except.ok.inj h) (fallback_ne_flag text none)
    case h_2 s a only =>
      cases h
      exact spelledBy_of_candidates only
    case h_3 => cases h

/-- Spellings are fronts of finitely many texts, and each of these is read as its flag. -/
theorem classify_of_spelledBy (h : f.SpelledBy text) :
    classify text = .ok (.flag f (isLong text) none) := by
  have fronts : ∀ entry ∈ Flag.table, ∀ front ∈ entry.1.toList.inits,
      entry.2.SpelledBy front → classify front = .ok (.flag entry.2 (isLong front) none) := by
    decide +kernel
  obtain ⟨s, written, front⟩ := h.1
  have among : text ∈ s.toList.inits := (List.mem_inits text s.toList).mpr front
  exact fronts (s, f) (Flag.mem_table_iff.mpr written) text among h

/-- The texts that are read as a flag without a value are its spellings. -/
theorem classify_eq_flag_iff :
    classify text = .ok (.flag f long none) ↔ f.SpelledBy text ∧ long = isLong text := by
  constructor
  · intro h
    unfold classify at h
    split at h
    case h_1 c cs => exact spelledBy_of_classifyDashed h
    case h_2 => cases h
  · rintro ⟨spelled, rfl⟩
    exact classify_of_spelledBy spelled

theorem classify_word (plain : text.head? ≠ some '-') : classify text = .ok (.word text) := by
  rw [classify]
  rintro c cs rfl
  exact plain rfl

theorem classifyAll_word (plain : text.head? ≠ some '-') (texts : List (List Char)) :
    classifyAll (text :: texts) = (classifyAll texts).map (.word text :: ·) := by
  rw [classifyAll, classify_word plain]
  rintro rfl
  exact plain rfl

theorem classifyAll_flag (spelled : f.SpelledBy text) (texts : List (List Char)) :
    classifyAll (text :: texts) = (classifyAll texts).map (.flag f (isLong text) none :: ·) := by
  rw [classifyAll, classify_eq_flag_iff.mpr ⟨spelled, rfl⟩]
  exact spelled.ne_separator

end

end Argument

/-! ## What a call asks for -/

/-- The arguments are words, which do not start with a dash, and spellings of flags,
none of which asks for help.  The words and the flags are listed as they come. -/
inductive Calls : List (List Char) → List (List Char) → List Flag → Prop where
  | nil : Calls [] [] []
  | word {text : List Char} {texts words : List (List Char)} {flags : List Flag} :
      text.head? ≠ some '-' → Calls texts words flags →
        Calls (text :: texts) (text :: words) flags
  | flag {f : Flag} {text : List Char} {texts words : List (List Char)} {flags : List Flag} :
      f ≠ .help → f.SpelledBy text → Calls texts words flags →
        Calls (text :: texts) words (f :: flags)

namespace Request

theorem consume_flag (r : Request) {f : Flag} (no_help : f ≠ .help) (long : Bool)
    (rest : List Argument) :
    r.consume (.flag f long none :: rest) =
      ({ r with flags := r.flags ++ [f] } : Request).consume rest := by
  have given : Flag.help ∉ [f] := fun help => no_help (List.mem_singleton.mp help).symm
  rw [consume, argumentFlags]
  simp only [takeFlags, if_neg given]

theorem consume_word {r : Request} (free : r.source = none) (text : List Char)
    {rest : List Argument} (unparted : .separator ∉ rest) :
    r.consume (.word text :: rest) = ({ r with source := some text } : Request).consume rest := by
  rw [consume, free]
  rintro rest' rfl
  exact unparted List.mem_cons_self

end Request

section

variable {texts words : List (List Char)} {source : List Char} {flags : List Flag}

theorem Calls.help_not_mem (call : Calls texts words flags) : Flag.help ∉ flags := by
  induction call with
  | nil => exact List.not_mem_nil
  | word _ _ ih => exact ih
  | flag no_help _ _ ih => exact List.not_mem_cons_of_ne_of_not_mem no_help.symm ih

theorem Calls.head?_of_mem (call : Calls texts words flags) :
    ∀ text ∈ words, text.head? ≠ some '-' := by
  induction call with
  | nil => exact nofun
  | word plain _ ih => exact List.forall_mem_cons.mpr ⟨plain, ih⟩
  | flag _ _ _ ih => exact ih

/-- From wherever the reading has come to, a call adds its flags.  Its word is the
source, unless the source was taken before. -/
theorem Calls.exists_consume (call : Calls texts words flags) :
    ∃ arguments, Argument.classifyAll texts = .ok arguments ∧ .separator ∉ arguments ∧
      ∀ (r : Request) (source : List Char), r.source.toList ++ words = [source] →
        r.consume arguments = .ok ⟨some source, r.flags ++ flags, r.extras⟩ := by
  induction call with
  | nil =>
      refine ⟨[], rfl, List.not_mem_nil, fun r source one => ?_⟩
      have taken : r.source = some source := by simpa using one
      rw [Request.consume, List.append_nil, ← taken]
  | @word text _ _ _ plain _ ih =>
      obtain ⟨arguments, classified, unparted, run⟩ := ih
      refine ⟨.word text :: arguments, ?_, ?_, fun r source one => ?_⟩
      · rw [Argument.classifyAll_word plain, classified]
        rfl
      · exact List.not_mem_cons_of_ne_of_not_mem nofun unparted
      · cases free : r.source with
        | some taken =>
            rw [free] at one
            cases one
        | none =>
            rw [free] at one
            rw [Request.consume_word free text unparted]
            exact run { r with source := some text } source one
  | @flag f text _ _ _ no_help spelled _ ih =>
      obtain ⟨arguments, classified, unparted, run⟩ := ih
      refine ⟨.flag f (Argument.isLong text) none :: arguments, ?_, ?_, fun r source one => ?_⟩
      · rw [Argument.classifyAll_flag spelled, classified]
        rfl
      · exact List.not_mem_cons_of_ne_of_not_mem nofun unparted
      · have rest := run { r with flags := r.flags ++ [f] } source one
        rw [Request.consume_flag r no_help, rest, List.append_assoc]
        rfl

/-- A call with one word asks for its flags, with the word as the source. -/
theorem Calls.ofArguments (call : Calls texts [source] flags) :
    Request.ofArguments texts = .ok (source, flags) := by
  obtain ⟨arguments, classified, _, run⟩ := call.exists_consume
  have taken : Request.empty.consume arguments = .ok ⟨some source, flags, []⟩ :=
    run .empty source rfl
  rw [Request.ofArguments, classified]
  dsimp only
  rw [taken]
  rfl

theorem Calls.settings (call : Calls texts [source] flags) :
    settingsOfArguments texts = .ok (.ofFlags source flags) := by
  rw [settingsOfArguments, call.ofArguments]

end

/-! ## Calls in full -/

/-- The call in which each of the flags stands once and in full, before the source. -/
def inFull (flags : List Flag) (source : List Char) : List (List Char) :=
  ([Flag.test, .json, .reportDuplicates].filter (· ∈ flags)).map Flag.fullSpelling ++ [source]

/-- Order and repetition of the flags do not matter to the settings. -/
theorem Settings.ofFlags_congr (source : List Char) {flags flags' : List Flag}
    (same : ∀ f, f ∈ flags ↔ f ∈ flags') : ofFlags source flags = ofFlags source flags' := by
  simp only [ofFlags, same]

section

variable {source : List Char} {flags : List Flag}

theorem mem_filter_flags (no_help : Flag.help ∉ flags) (f : Flag) :
    f ∈ [Flag.test, .json, .reportDuplicates].filter (· ∈ flags) ↔ f ∈ flags := by
  rw [List.mem_filter, decide_eq_true_iff, and_iff_right_iff_imp]
  intro asked
  cases f with
  | help => exact absurd asked no_help
  | test => decide
  | json => decide
  | reportDuplicates => decide

theorem calls_fullSpelling (no_help : Flag.help ∉ flags) (plain : source.head? ≠ some '-') :
    Calls (flags.map Flag.fullSpelling ++ [source]) [source] flags := by
  induction flags with
  | nil => exact .word plain .nil
  | cons f flags ih =>
      obtain ⟨other, rest⟩ := not_or.mp (mt List.mem_cons.mpr no_help)
      exact .flag (Ne.symm other) f.spelledBy_fullSpelling (ih rest)

theorem settings_inFull (no_help : Flag.help ∉ flags) (plain : source.head? ≠ some '-') :
    settingsOfArguments (inFull flags source) = .ok (.ofFlags source flags) := by
  have same := mem_filter_flags no_help
  have full := calls_fullSpelling (fun help => no_help ((same _).mp help)) plain
  rw [inFull, full.settings, Settings.ofFlags_congr source same]

end

/-- A call comes to what the call in full with the same flags comes to, and its settings
follow from which flags it asks for.  The report on a text is printed as JSON exactly
if `--test` is not asked for or `--json` is. -/
theorem command_follows_flags (texts : List (List Char)) (source : List Char)
    (flags : List Flag) (call : Calls texts [source] flags) :
    (∀ read, runCommand read texts = runCommand read (inFull flags source)) ∧
      (∃ s, settingsOfArguments texts = .ok s ∧ s.source = .ofText source ∧
        (s.testMode = true ↔ Flag.test ∈ flags) ∧
        (s.reportDuplicates = true ↔ Flag.reportDuplicates ∈ flags) ∧
        (s.json = true ↔ Flag.test ∉ flags ∨ Flag.json ∈ flags)) ∧
      ∀ read text, HasText read (.ofText source) text → ∃ report outcome,
        Report.ofSource (Flag.reportDuplicates ∈ flags) text = .ok report ∧
          runCommand read texts = .ok outcome ∧
          (String.ofList report.toJson.render ∈ outcome.out ↔
            Flag.test ∉ flags ∨ Flag.json ∈ flags) := by
  have plain := call.head?_of_mem source (List.mem_singleton_self source)
  have settings := call.settings
  have settings' := settings_inFull call.help_not_mem plain
  refine ⟨?_, ⟨_, settings, rfl, decide_eq_true_iff, decide_eq_true_iff, ?_⟩, ?_⟩
  · intro read
    rw [runCommand, runCommand, runWith, runWith, settings, settings']
  · simp [Settings.ofFlags, Settings.ofChoices]
  · intro read text has
    obtain ⟨report, outcome, reported, run, presents⟩ := runCommand_presents call.ofArguments has
    exact ⟨report, outcome, reported, run, presents.json_mem_out_iff⟩

/-- Flags shortened, repeated and on both sides of the source. -/
def shortenedCall : List (List Char) :=
  ["-te".toList, "--j".toList, "./T.pvs".toList, "--test".toList, "-t".toList]

theorem command_follows_flags_shortenedCall :
    Calls shortenedCall ["./T.pvs".toList] [.test, .json, .test, .test] ∧
      (∀ read, runCommand read shortenedCall =
        runCommand read ["--test".toList, "--json".toList, "./T.pvs".toList]) ∧
      (∃ s, settingsOfArguments shortenedCall = .ok s ∧
        s.testMode = true ∧ s.reportDuplicates = false ∧ s.json = true) ∧
      HasText smallFolder.read (.ofText "./T.pvs".toList) smallTheory ∧
      ∃ report outcome, Report.ofSource false smallTheory = .ok report ∧
        runCommand smallFolder.read shortenedCall = .ok outcome ∧
        String.ofList report.toJson.render ∈ outcome.out := by
  have call : Calls shortenedCall ["./T.pvs".toList] [.test, .json, .test, .test] := by
    refine .flag nofun (by decide +kernel) (.flag nofun (by decide +kernel) ?_)
    refine .word (by decide) (.flag nofun (by decide +kernel) ?_)
    exact .flag nofun (by decide +kernel) .nil
  have full : inFull [.test, .json, .test, .test] "./T.pvs".toList =
      ["--test".toList, "--json".toList, "./T.pvs".toList] := by
    decide
  obtain ⟨same, ⟨s, settings, _, test, duplicates, json⟩, printed⟩ :=
    command_follows_flags _ _ _ call
  have off : s.reportDuplicates = false :=
    Bool.eq_false_iff.mpr (mt duplicates.mp (by decide))
  obtain ⟨report, outcome, reported, run, line⟩ := printed _ _ smallFolder_hasText
  exact ⟨call, full ▸ same, ⟨s, settings, test.mpr (by decide), off, json.mpr (Or.inr (by decide))⟩,
    smallFolder_hasText, report, outcome, reported, run, line.mpr (Or.inr (by decide))⟩

end PvsIndex
