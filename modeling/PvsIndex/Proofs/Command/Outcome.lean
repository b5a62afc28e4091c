import PvsIndex.Command.Run
import PvsIndex.Proofs.Declaration.Pointing
import PvsIndex.Proofs.Report
import PvsIndex.Proofs.Text.Utf8

/-!
# What the command leaves behind

The command always comes to an outcome, and the outcome says how things stand
with the file: it has no text, or a text with syntax errors, or a clean one.
The two renderings of a report, as JSON for programs and line by line for people,
do not get in each other's way, and they tell the same.

Two faults have no outcome.  A NUL character in the path is excluded by
assumption, and a tree that cannot be walked does not come from a text
(`Report.ofSource_cases`).  That the JSON form of a report is printed only if it
is asked for needs a look at the lines around it: a report begins with a bracket
and ends with one, and no line of a summary does both, since names begin with a
letter (`Outcome.not_isBracketed_account`).
-/

namespace PvsIndex

/-! ## Files and their texts -/

/-- The file at a path has this text: it can be read, and its bytes encode it. -/
def HasText (read : Path → Except ReadFault (List UInt8)) (p : Path) (text : List Char) : Prop :=
  ∃ bytes, read p = .ok bytes ∧ Utf8.encode text = bytes

/-- Reading complains of a NUL character only if there is one in the path. -/
def ComplainsOfNul (read : Path → Except ReadFault (List UInt8)) : Prop :=
  ∀ p, read p = .error .nulInPath → '\x00' ∈ p.text

theorem decodeSource_eq_ok_iff {bytes : List UInt8} {text : List Char} :
    decodeSource bytes = .ok text ↔ Utf8.encode text = bytes := by
  rw [← Utf8.decode_eq_ok_iff, decodeSource]
  cases Utf8.decode bytes with
  | ok decoded => simp [Except.mapError]
  | error fault => simp [Except.mapError]

theorem decodeSource_ne_nulInPath (bytes : List UInt8) :
    decodeSource bytes ≠ .error .nulInPath := by
  rw [decodeSource]
  cases Utf8.decode bytes with
  | ok decoded => nofun
  | error fault => nofun

section

variable {read : Path → Except ReadFault (List UInt8)} {p : Path}

theorem hasText_iff {text : List Char} :
    HasText read p text ↔ (read p).bind decodeSource = .ok text := by
  unfold HasText
  cases outcome : read p with
  | ok bytes =>
      rw [Except.bind, decodeSource_eq_ok_iff]
      constructor
      · rintro ⟨_, ⟨⟩, encoded⟩
        exact encoded
      · intro encoded
        exact ⟨bytes, rfl, encoded⟩
  | error fault =>
      constructor
      · rintro ⟨_, ⟨⟩, _⟩
      · rintro ⟨⟩

/-- A file has one text. -/
theorem HasText.unique {text text' : List Char} (h : HasText read p text)
    (h' : HasText read p text') : text = text' :=
  Except.ok.inj ((hasText_iff.mp h).symm.trans (hasText_iff.mp h'))

theorem ComplainsOfNul.bind_ne (h : ComplainsOfNul read) (no_nul : '\x00' ∉ p.text) :
    (read p).bind decodeSource ≠ .error .nulInPath := by
  cases outcome : read p with
  | ok bytes => exact decodeSource_ne_nulInPath bytes
  | error fault =>
      rintro ⟨⟩
      exact no_nul (h p outcome)

end

/-- Files in folders are read so. -/
theorem Folder.find_ne_nulInPath (p : Path) (above : List Folder) (here : Folder)
    (names : List (List Char)) : find p above here names ≠ .error .nulInPath := by
  fun_induction find p above here names with
  | case1 => nofun
  | case2 _ _ ih => exact ih
  | case3 _ _ _ _ ih => exact ih
  | case4 => nofun
  | case5 _ _ _ _ _ _ _ ih => exact ih
  | case6 => nofun
  | case7 => nofun

theorem Folder.complainsOfNul (working : Folder) : ComplainsOfNul working.read := by
  intro p complaint
  by_contra no_nul
  rw [read, if_neg (by simpa using no_nul)] at complaint
  split at complaint
  · exact find_ne_nulInPath _ _ _ _ complaint
  · exact find_ne_nulInPath _ _ _ _ complaint
  · exact find_ne_nulInPath _ _ _ _ complaint

/-! ## Every text gets a report -/

/-- The report on a text has its syntax errors, or the index of its names. -/
theorem Report.ofSource_cases (reportDuplicates : Bool) (text : List Char) :
    ((parse text).diagnostics ≠ [] ∧
        ofSource reportDuplicates text = .ok (.rejected (parse text).diagnostics)) ∨
      (parse text).diagnostics = [] ∧
        ∃ index duplicates, ofSource reportDuplicates text = .ok (.indexed index duplicates) ∧
          ∀ kind d, index.Lists kind d → Shape.name.Matches d.identifier := by
  by_cases clean : (parse text).diagnostics = []
  · obtain ⟨root, ts, parsed⟩ := parse_diagnostics_eq_nil_iff.mp clean
    obtain ⟨duplicates, report⟩ := ofSource_parsed parsed reportDuplicates
    exact Or.inr ⟨clean, _, duplicates, report, fun _ _ listed => written_of_lists parsed listed⟩
  · refine Or.inl ⟨clean, ?_⟩
    rw [ofSource, Parsed.eq_rejected clean]
    rfl

/-! ## Two renderings -/

/-- The value of a member of an object. -/
def Json.get? (value : Json) (key : String) : Option Json :=
  match value with
  | object members => (members.find? fun member => member.1 = key).map Prod.snd
  | _ => none

/-- The entry shows, for the file at the path `p`, where the item starts and what
its message is, as its JSON form has them. -/
def ShownAs (p : Path) (item : Json) (entry : String) : Prop :=
  ∃ (start : Json) (line character : Int) (severity : Severity) (message : String),
    (item.get? "range").bind (·.get? "start") = some start ∧
    start.get? "line" = some (.number line) ∧
    start.get? "character" = some (.number character) ∧
    item.get? "severity" = some (.number severity.code) ∧
    item.get? "message" = some (.string message) ∧
    entry = p.toString ++ ":" ++ toString line ++ ":" ++ toString character ++ ": " ++
      severity.word ++ ": " ++ message

theorem shownAs_diagnosticLine (p : Path) (d : Diagnostic) :
    ShownAs p d.toJson (Outcome.diagnosticLine p d) :=
  ⟨d.range.start.toJson, d.range.start.line, d.range.start.character, d.severity, d.message,
    rfl, rfl, rfl, rfl, rfl, rfl⟩

/-- Diagnostics are shown one by one, in their order. -/
theorem forall₂_shownAs (p : Path) (ds : List Diagnostic) :
    List.Forall₂ (fun (d : Diagnostic) entry => ShownAs p d.toJson entry) ds
      (ds.map (Outcome.diagnosticLine p)) := by
  rw [List.forall₂_map_right_iff, List.forall₂_same]
  exact fun d _ => shownAs_diagnosticLine p d

/-- A text in brackets, square or curly. -/
structure IsBracketed (text : List Char) : Prop where
  first : ∃ c ∈ text.head?, c = '[' ∨ c = '\x7b'
  last : ∃ c ∈ text.getLast?, c = ']' ∨ c = '\x7d'

theorem isBracketed_array (items : List Json) : IsBracketed (Json.array items).render := by
  rw [Json.render]
  exact ⟨⟨'[', rfl, Or.inl rfl⟩, ']', List.getLast?_concat, Or.inl rfl⟩

theorem isBracketed_object (members : List (String × Json)) :
    IsBracketed (Json.object members).render := by
  rw [Json.render]
  exact ⟨⟨'\x7b', rfl, Or.inr rfl⟩, '\x7d', List.getLast?_concat, Or.inr rfl⟩

theorem Report.isBracketed (report : Report) : IsBracketed report.toJson.render := by
  cases report with
  | rejected diagnostics => exact isBracketed_array _
  | indexed index duplicates =>
      cases duplicates with
      | nil => exact isBracketed_object _
      | cons d duplicates => exact isBracketed_object _

/-! ## The lines of a summary -/

theorem not_isBracketed_of_head {text : List Char} {c : Char} (h : text.head? = some c)
    (other : c ≠ '[' ∧ c ≠ '\x7b') : ¬ IsBracketed text := by
  rintro ⟨⟨d, first, bracket⟩, _⟩
  obtain rfl : c = d := Option.some.inj (h.symm.trans first)
  rcases bracket with rfl | rfl
  · exact other.1 rfl
  · exact other.2 rfl

theorem not_isBracketed_of_last {text : List Char} {c : Char} (h : text.getLast? = some c)
    (other : c ≠ ']' ∧ c ≠ '\x7d') : ¬ IsBracketed text := by
  rintro ⟨_, d, last, bracket⟩
  obtain rfl : c = d := Option.some.inj (h.symm.trans last)
  rcases bracket with rfl | rfl
  · exact other.1 rfl
  · exact other.2 rfl

theorem getLast?_toList_append {front back : String} {c : Char}
    (h : back.toList.getLast? = some c) : (front ++ back).toList.getLast? = some c := by
  rw [String.toList_append, List.getLast?_append, h]
  rfl

theorem head?_toList_append {front back : String} {c : Char} (h : front.toList.head? = some c) :
    (front ++ back).toList.head? = some c := by
  rw [String.toList_append, List.head?_append, h]
  rfl

namespace Outcome

theorem not_isBracketed_greeting (s : Settings) :
    ∀ line ∈ greeting s, ¬ IsBracketed line.toList := by
  have opening : "Parsing file ".toList.head? = some 'P' := by decide
  rw [greeting]
  split
  · have first := @head?_toList_append _ s.source.toString _ opening
    exact List.forall_mem_singleton.mpr (not_isBracketed_of_head first (by decide))
  · exact nofun

/-- The lines of a table are not bracketed, since names begin with a letter. -/
theorem not_isBracketed_tableLines {title : String} {t : Table}
    (plural : title.toList.getLast? = some 's')
    (names : ∀ d ∈ t, Shape.name.Matches d.identifier) :
    ∀ line ∈ tableLines title t, ¬ IsBracketed line.toList := by
  have dashes : ruler.toList = List.replicate 30 '-' := String.toList_ofList
  have ruled : ¬ IsBracketed ruler.toList := by
    rw [dashes]
    exact not_isBracketed_of_head (c := '-') rfl (by decide)
  have counted : ¬ IsBracketed (toString t.length ++ " " ++ title).toList :=
    not_isBracketed_of_last (getLast?_toList_append plural) (by decide)
  have entry : ∀ d ∈ t, ¬ IsBracketed
      (String.ofList d.identifier ++ " " ++ String.ofList d.toJson.render).toList := by
    intro d hd
    have written := names d hd
    generalize d.identifier = name at written
    cases written with
    | @name c cs letter inside =>
        have first : (String.ofList (c :: cs)).toList.head? = some c := by
          rw [String.toList_ofList]
          rfl
        refine not_isBracketed_of_head (head?_toList_append (head?_toList_append first)) ⟨?_, ?_⟩
        · rintro rfl
          exact absurd letter (by decide)
        · rintro rfl
          exact absurd letter (by decide)
  intro line hline
  rw [tableLines, List.mem_append, List.mem_map] at hline
  rcases hline with fixed | ⟨d, hd, rfl⟩
  · simp only [List.mem_cons, List.not_mem_nil, or_false] at fixed
    rcases fixed with rfl | rfl | rfl
    · exact ruled
    · exact counted
    · exact ruled
  · exact entry d hd

/-- What is printed for people about a clean text. -/
def account (s : Settings) (index : Index) : List String :=
  greeting s ++ [s.source.toString ++ " parsed successfully!"] ++ summary index

theorem not_isBracketed_account (s : Settings) {index : Index}
    (names : ∀ kind d, index.Lists kind d → Shape.name.Matches d.identifier) :
    ∀ line ∈ account s index, ¬ IsBracketed line.toList := by
  have success : " parsed successfully!".toList.getLast? = some '!' := by decide
  have types := @not_isBracketed_tableLines "type declarations" index.types (by decide)
    fun d hd => names .type d (Or.inl hd)
  have formulas := @not_isBracketed_tableLines "formula declarations" index.formulas (by decide)
    fun d hd => names .formula d (Or.inl hd)
  rw [account, summary, List.forall_mem_append, List.forall_mem_append, List.forall_mem_append]
  refine ⟨⟨not_isBracketed_greeting s, ?_⟩, types, formulas⟩
  refine List.forall_mem_singleton.mpr ?_
  exact not_isBracketed_of_last (getLast?_toList_append success) (by decide)

/-! ## Outcomes -/

/-- The outcome presents the report on the file at the path `p`.  The report as
JSON comes last, if it is to be printed at all, and what is printed before it is
something else.  Only `--test` has entries on standard error, one for each
diagnostic of a rejected text and for each duplicate of a clean one. -/
structure Presents (o : Outcome) (p : Path) (flags : List Flag) (report : Report) : Prop where
  out : ∃ shown,
    o.out = shown ++ (if Flag.test ∉ flags ∨ Flag.json ∈ flags then
      [String.ofList report.toJson.render] else []) ∧
    String.ofList report.toJson.render ∉ shown ∧ (Flag.test ∉ flags → shown = [])
  entries : Flag.test ∈ flags →
    List.Forall₂ (fun (d : Diagnostic) entry => ShownAs p d.toJson entry)
      (if o.exit = 1 then report.diagnostics else report.duplicates) o.err
  quiet : Flag.test ∉ flags → o.err = []

/-- The report as JSON is among the lines exactly if it is to be printed. -/
theorem Presents.json_mem_out_iff {o : Outcome} {p : Path} {flags : List Flag} {report : Report}
    (h : o.Presents p flags report) :
    String.ofList report.toJson.render ∈ o.out ↔ Flag.test ∉ flags ∨ Flag.json ∈ flags := by
  obtain ⟨shown, out, other, _⟩ := h.out
  rw [out, List.mem_append, or_iff_right other]
  split
  next asked => exact iff_of_true (List.mem_singleton_self _) asked
  next silent => exact iff_of_false List.not_mem_nil silent

theorem json_not_mem {report : Report} {shown : List String}
    (plain : ∀ line ∈ shown, ¬ IsBracketed line.toList) :
    String.ofList report.toJson.render ∉ shown := by
  intro among
  refine plain _ among ?_
  rw [String.toList_ofList]
  exact report.isBracketed

section

variable (source : List Char) (flags : List Flag)

/-- The report is printed as JSON unless `--test` stands without `--json`. -/
theorem jsonLines_ofFlags (report : Report) :
    jsonLines (.ofFlags source flags) report =
      if Flag.test ∉ flags ∨ Flag.json ∈ flags then [String.ofList report.toJson.render]
      else [] := by
  simp [jsonLines, Settings.ofFlags, Settings.ofChoices]

theorem greeting_ofFlags :
    greeting (.ofFlags source flags) =
      if Flag.test ∈ flags then ["Parsing file " ++ (Path.ofText source).toString] else [] := by
  simp [greeting, Settings.ofFlags, Settings.ofChoices]

theorem testMode_ofFlags : (Settings.ofFlags source flags).testMode = true ↔ Flag.test ∈ flags :=
  decide_eq_true_iff

theorem ofReport_rejected_presents (ds : List Diagnostic) :
    (ofReport (.ofFlags source flags) (.rejected ds)).Presents (.ofText source) flags
      (.rejected ds) where
  out := by
    refine ⟨greeting (.ofFlags source flags), ?_, json_not_mem (not_isBracketed_greeting _), ?_⟩
    · rw [ofReport, jsonLines_ofFlags]
    · intro no_test
      rw [greeting_ofFlags, if_neg no_test]
  entries := by
    intro test
    simp only [ofReport, if_pos ((testMode_ofFlags source flags).mpr test)]
    exact forall₂_shownAs _ ds
  quiet := by
    intro no_test
    simp only [ofReport, if_neg (mt (testMode_ofFlags source flags).mp no_test)]

theorem ofReport_indexed_presents {index : Index} (ds : List Diagnostic)
    (names : ∀ kind d, index.Lists kind d → Shape.name.Matches d.identifier) :
    (ofReport (.ofFlags source flags) (.indexed index ds)).Presents (.ofText source) flags
      (.indexed index ds) := by
  by_cases test : Flag.test ∈ flags
  · have mode := (testMode_ofFlags source flags).mpr test
    refine ⟨⟨account (.ofFlags source flags) index, ?_, ?_, absurd test⟩, fun _ => ?_, absurd test⟩
    · rw [ofReport, if_pos mode, jsonLines_ofFlags]
      rfl
    · exact json_not_mem (not_isBracketed_account _ names)
    · simp only [ofReport, if_pos mode]
      exact forall₂_shownAs _ ds
  · have mode := mt (testMode_ofFlags source flags).mp test
    refine ⟨⟨[], ?_, List.not_mem_nil, fun _ => rfl⟩, fun given => absurd given test, fun _ => ?_⟩
    · rw [ofReport, if_neg mode, jsonLines_ofFlags]
      rfl
    · rw [ofReport, if_neg mode]

end

/-- The outcome answers for the file at the path `p`: the exit code says how
things stand with it, and what is printed goes with the exit code. -/
structure Answers (o : Outcome) (read : Path → Except ReadFault (List UInt8)) (p : Path)
    (flags : List Flag) : Prop where
  unreadable : o.exit = 2 ↔ ¬ ∃ text, HasText read p text
  rejected : o.exit = 1 ↔ ∃ text, HasText read p text ∧ (parse text).diagnostics ≠ []
  clean : o.exit = 0 ↔ ∃ text, HasText read p text ∧ (parse text).diagnostics = []
  fatal : o.exit = 2 →
    o.out = (if Flag.test ∈ flags then ["Parsing file " ++ p.toString] else []) ∧
    ∃ reason, o.err = [p.toString ++ ":?:?: error: cannot read input: " ++ reason]
  presents : ∀ text, HasText read p text → ∃ report,
    Report.ofSource (Flag.reportDuplicates ∈ flags) text = .ok report ∧
      o.Presents p flags report

section

variable {read : Path → Except ReadFault (List UInt8)} {source : List Char} {flags : List Flag}

/-- Without a text there is one message. -/
theorem fatal_answers (textless : ¬ ∃ text, HasText read (.ofText source) text)
    (reason : String) :
    (Outcome.fatal (.ofFlags source flags) ("cannot read input: " ++ reason)).Answers read
      (.ofText source) flags where
  unreadable := iff_of_true rfl textless
  rejected := iff_of_false nofun fun ⟨text, has, _⟩ => textless ⟨text, has⟩
  clean := iff_of_false nofun fun ⟨text, has, _⟩ => textless ⟨text, has⟩
  fatal := by
    intro _
    have wording :
        ":?:?: error: " ++ "cannot read input: " = ":?:?: error: cannot read input: " := by
      decide
    refine ⟨greeting_ofFlags source flags, reason, ?_⟩
    rw [Outcome.fatal, ← wording]
    simp only [String.append_assoc]
    rfl
  presents := fun text has => absurd ⟨text, has⟩ textless

theorem exit_ofReport_indexed (s : Settings) (index : Index) (ds : List Diagnostic) :
    (ofReport s (.indexed index ds)).exit = 0 := by
  rw [ofReport]
  split
  · rfl
  · rfl

/-- With a text there is the report on it. -/
theorem ofReport_answers {text : List Char} (has : HasText read (.ofText source) text) :
    ∃ report, Report.ofSource (Flag.reportDuplicates ∈ flags) text = .ok report ∧
      (ofReport (.ofFlags source flags) report).Answers read (.ofText source) flags := by
  have only {motive : List Char → Prop} :
      (∃ other, HasText read (.ofText source) other ∧ motive other) ↔ motive text := by
    constructor
    · rintro ⟨other, has', holds⟩
      exact has.unique has' ▸ holds
    · exact fun holds => ⟨text, has, holds⟩
  rcases Report.ofSource_cases (Flag.reportDuplicates ∈ flags) text with
    ⟨errors, report⟩ | ⟨clean, index, duplicates, report, names⟩
  · refine ⟨_, report, ?_, ?_, ?_, nofun, ?_⟩
    · exact iff_of_false nofun (not_not_intro ⟨text, has⟩)
    · rw [only]
      exact iff_of_true rfl errors
    · rw [only]
      exact iff_of_false nofun errors
    · intro other has'
      obtain rfl := has.unique has'
      exact ⟨_, report, ofReport_rejected_presents source flags _⟩
  · have exit := exit_ofReport_indexed (.ofFlags source flags) index duplicates
    refine ⟨_, report, ?_, ?_, ?_, ?_, ?_⟩
    · rw [exit]
      exact iff_of_false nofun (not_not_intro ⟨text, has⟩)
    · rw [exit, only]
      exact iff_of_false nofun (not_not_intro clean)
    · rw [exit, only]
      exact iff_of_true rfl clean
    · rw [exit]
      exact nofun
    · intro other has'
      obtain rfl := has.unique has'
      exact ⟨_, report, ofReport_indexed_presents source flags duplicates names⟩

end

end Outcome

section

variable {read : Path → Except ReadFault (List UInt8)} {arguments : List (List Char)}
  {source : List Char} {flags : List Flag}

/-- An accepted call is a check of its file. -/
theorem runCommand_of_accepted (accepted : Request.ofArguments arguments = .ok (source, flags)) :
    runCommand read arguments = Outcome.ofChecked (.ofFlags source flags)
      (checkBytes parse (Flag.reportDuplicates ∈ flags) (read (.ofText source))) := by
  rw [runCommand, runWith, settingsOfArguments, accepted]
  rfl

/-- The outcome for a file with a text is the outcome for the report on the text. -/
theorem runCommand_of_report (accepted : Request.ofArguments arguments = .ok (source, flags))
    {text : List Char} (has : HasText read (.ofText source) text) {report : Report}
    (reported : Report.ofSource (Flag.reportDuplicates ∈ flags) text = .ok report) :
    runCommand read arguments = .ok (.ofReport (.ofFlags source flags) report) := by
  rw [runCommand_of_accepted accepted, checkBytes, hasText_iff.mp has]
  show Outcome.ofChecked _ (Except.mapError _ (Report.ofSource _ text)) = _
  rw [reported]
  rfl

theorem runCommand_presents (accepted : Request.ofArguments arguments = .ok (source, flags))
    {text : List Char} (has : HasText read (.ofText source) text) :
    ∃ report outcome, Report.ofSource (Flag.reportDuplicates ∈ flags) text = .ok report ∧
      runCommand read arguments = .ok outcome ∧
      outcome.Presents (.ofText source) flags report := by
  obtain ⟨report, reported, answers⟩ := @Outcome.ofReport_answers _ _ flags _ has
  obtain ⟨report', reported', presents⟩ := answers.presents text has
  obtain rfl := Except.ok.inj (reported.symm.trans reported')
  exact ⟨report, _, reported, runCommand_of_report accepted has reported, presents⟩

end

/-- Every accepted call of the command on a path without NUL characters has an
outcome that answers for the file at the path. -/
theorem command_answers (read : Path → Except ReadFault (List UInt8))
    (arguments : List (List Char)) (source : List Char) (flags : List Flag)
    (complains : ComplainsOfNul read)
    (accepted : Request.ofArguments arguments = .ok (source, flags))
    (no_nul : '\x00' ∉ (Path.ofText source).text) :
    ∃ outcome, runCommand read arguments = .ok outcome ∧
      outcome.Answers read (.ofText source) flags := by
  cases contents : (read (.ofText source)).bind decodeSource with
  | error fault =>
      have textless : ¬ ∃ text, HasText read (.ofText source) text := by
        rintro ⟨text, has⟩
        rw [hasText_iff, contents] at has
        cases has
      refine ⟨_, ?_, Outcome.fatal_answers textless fault.message⟩
      rw [runCommand_of_accepted accepted, checkBytes, contents]
      cases fault with
      | nulInPath => exact absurd contents (complains.bind_ne no_nul)
      | _ => rfl
  | ok text =>
      have has := hasText_iff.mpr contents
      obtain ⟨report, reported, answers⟩ := Outcome.ofReport_answers has
      exact ⟨_, runCommand_of_report accepted has reported, answers⟩

/-- A folder with the small theory. -/
def smallFolder : Folder :=
  [("T.pvs".toList, .file (Utf8.encode smallTheory))]

theorem smallFolder_hasText :
    HasText smallFolder.read (.ofText "./T.pvs".toList) smallTheory := by
  refine ⟨_, ?_, rfl⟩
  rfl

theorem command_answers_smallTheory :
    Request.ofArguments ["--te".toList, "./T.pvs".toList] = .ok ("./T.pvs".toList, [.test]) ∧
      ∃ outcome, runCommand smallFolder.read ["--te".toList, "./T.pvs".toList] = .ok outcome ∧
        outcome.exit = 0 := by
  have accepted : Request.ofArguments ["--te".toList, "./T.pvs".toList] =
      .ok ("./T.pvs".toList, [.test]) := by
    decide +kernel
  obtain ⟨outcome, run, answers⟩ := command_answers smallFolder.read _ _ _
    smallFolder.complainsOfNul accepted (by decide +kernel)
  exact ⟨accepted, outcome, run,
    answers.clean.mpr ⟨smallTheory, smallFolder_hasText, diagnostics_smallTheory⟩⟩

end PvsIndex
