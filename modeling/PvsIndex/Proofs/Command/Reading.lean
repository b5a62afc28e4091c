import PvsIndex.Proofs.Command.Outcome

/-!
# Reading a file

What is checked is the text that the bytes of the file encode, character for
character: line ends stay as they are, and so does a byte order mark.  Bytes that
encode no text are not checked at all; the fault says where the longest front of
them that encodes one comes to its end.
-/

namespace PvsIndex

section

variable {read : Path → Except ReadFault (List UInt8)} {p : Path} {bytes : List UInt8}

/-- The report on a file is the report on its text. -/
theorem checkFile_of_text (stored : read p = .ok bytes) {text : List Char}
    (encoded : Utf8.encode text = bytes) (reportDuplicates : Bool) :
    checkFile read (some p) reportDuplicates =
      (Report.ofSource reportDuplicates text).mapError .tree := by
  have decoded : decodeSource bytes = .ok text := decodeSource_eq_ok_iff.mpr encoded
  rw [checkFile, fetch, stored, checkBytes, Except.bind, decoded]
  rfl

/-- A file without a text is not checked. -/
theorem checkFile_of_undecodable (stored : read p = .ok bytes) {fault : Utf8.Fault}
    (failed : Utf8.decode bytes = .error fault) (reportDuplicates : Bool) :
    checkFile read (some p) reportDuplicates = .error (.source (.undecodable fault)) := by
  rw [checkFile, fetch, stored, checkBytes, Except.bind, decodeSource, failed]
  rfl

end

/-- A file whose bytes encode a text encodes no other, and is reported on as this text
is.  The bytes of any other file are a fault behind the longest front of them that
encodes a text. -/
theorem file_read_exactly (read : Path → Except ReadFault (List UInt8)) (p : Path)
    (bytes : List UInt8) (reportDuplicates : Bool) (stored : read p = .ok bytes) :
    (∀ text, Utf8.encode text = bytes →
      (∀ other, Utf8.encode other = bytes → other = text) ∧
      ∃ report, Report.ofSource reportDuplicates text = .ok report ∧
        checkFile read (some p) reportDuplicates = .ok report) ∧
    ((∀ text, Utf8.encode text ≠ bytes) →
      ∃ fault, checkFile read (some p) reportDuplicates = .error (.source (.undecodable fault)) ∧
        (∃ front, Utf8.encode front <+: bytes ∧ (Utf8.encode front).length = fault.position) ∧
        ∀ front, Utf8.encode front <+: bytes → (Utf8.encode front).length ≤ fault.position) := by
  constructor
  · intro text encoded
    refine ⟨fun other same => ?_, ?_⟩
    · have decoded := Utf8.decode_eq_ok_iff.mpr encoded
      exact Except.ok.inj ((Utf8.decode_eq_ok_iff.mpr same).symm.trans decoded)
    · have checked := checkFile_of_text stored encoded reportDuplicates
      rcases Report.ofSource_cases reportDuplicates text with ⟨_, report⟩ | ⟨_, _, _, report, _⟩
      · exact ⟨_, report, by rw [checked, report]; rfl⟩
      · exact ⟨_, report, by rw [checked, report]; rfl⟩
  · intro unencoded
    cases outcome : Utf8.decode bytes with
    | ok text => exact absurd (Utf8.decode_eq_ok_iff.mp outcome) (unencoded text)
    | error fault =>
        exact ⟨fault, checkFile_of_undecodable stored outcome reportDuplicates,
          Utf8.decode_eq_error outcome⟩

/-- A file with a byte order mark and a line end of two characters, and one that breaks
off within the three bytes of a character. -/
def markedFolder : Folder :=
  [("M.pvs".toList, .file [0xEF, 0xBB, 0xBF, 0x41, 0x0D, 0x0A]),
   ("T.pvs".toList, .file [0x41, 0x0D, 0x0A, 0xE2, 0x82])]

theorem file_read_exactly_marked :
    (markedFolder.read (.ofText "M.pvs".toList) = .ok [0xEF, 0xBB, 0xBF, 0x41, 0x0D, 0x0A] ∧
      ∃ report, Report.ofSource false ['\uFEFF', 'A', '\r', '\n'] = .ok report ∧
        checkFile markedFolder.read (some (.ofText "M.pvs".toList)) false = .ok report) ∧
    (markedFolder.read (.ofText "T.pvs".toList) = .ok [0x41, 0x0D, 0x0A, 0xE2, 0x82] ∧
      ∃ fault, checkFile markedFolder.read (some (.ofText "T.pvs".toList)) false =
        .error (.source (.undecodable fault)) ∧ 3 ≤ fault.position ∧ fault.position < 5) := by
  have marked :
      markedFolder.read (.ofText "M.pvs".toList) = .ok [0xEF, 0xBB, 0xBF, 0x41, 0x0D, 0x0A] := by
    rfl
  have broken :
      markedFolder.read (.ofText "T.pvs".toList) = .ok [0x41, 0x0D, 0x0A, 0xE2, 0x82] := by
    rfl
  have unencoded : ∀ text, Utf8.encode text ≠ [0x41, 0x0D, 0x0A, 0xE2, 0x82] := by
    intro text encoded
    cases Utf8.decode_eq_ok_iff.mpr encoded
  refine ⟨⟨marked, ?_⟩, broken, ?_⟩
  · exact ((file_read_exactly _ _ _ false marked).1 ['\uFEFF', 'A', '\r', '\n'] rfl).2
  · obtain ⟨fault, checked, ⟨front, ahead, length⟩, longest⟩ :=
      (file_read_exactly _ _ _ false broken).2 unencoded
    refine ⟨fault, checked, longest ['A', '\r', '\n'] ⟨[0xE2, 0x82], rfl⟩, ?_⟩
    rw [← length]
    exact Nat.lt_of_le_of_ne ahead.length_le fun whole => unencoded front (ahead.eq_of_length whole)

end PvsIndex
