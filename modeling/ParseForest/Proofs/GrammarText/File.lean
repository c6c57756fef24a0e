import Mathlib.Data.List.Forall2
import Mathlib.Data.List.Perm.Subperm
import ParseForest.Proofs.GrammarText.Reading
import ParseForest.Proofs.Text.Utf8

/-! # Reading a file

The lines of a file that holds an encoded text decode to the lines of the text, so the file is read
like the text (`ofFile_utf8`).  A file that holds no encoded text has a line that cannot be decoded.
Then nothing but lines is reported (`LineReport`): each that cannot be decoded, and each that can be,
holds a rule and is faulty, in the order of the file. -/

namespace ParseForest.GrammarText

/-! ### Decoding a line -/

theorem fromUTF8?_eq_some_iff {bytes : ByteArray} {text : String} :
    String.fromUTF8? bytes = some text ↔ text.toUTF8 = bytes := by
  unfold String.fromUTF8?
  split
  · rw [Option.some.injEq, ← String.toByteArray_inj, String.toUTF8_eq_toByteArray]
    exact eq_comm
  · rename_i hinvalid
    refine ⟨nofun, ?_⟩
    rintro rfl
    exact absurd text.isValidUTF8 hinvalid

theorem toUTF8_eq_iff {bytes : ByteArray} {text : String} :
    text.toUTF8 = bytes ↔ Text.utf8 text = bytes.data.toList := by
  rw [Text.utf8, Array.toList_inj]
  exact ⟨congrArg ByteArray.data, ByteArray.ext⟩

section

variable {bytes : List UInt8}

theorem decodeLine_eq_ok_iff {text : String} :
    decodeLine bytes = .ok text ↔ Text.utf8 text = bytes := by
  have hdecode : String.fromUTF8? ⟨bytes.toArray⟩ = some text ↔ Text.utf8 text = bytes :=
    fromUTF8?_eq_some_iff.trans toUTF8_eq_iff
  rw [← hdecode]
  unfold decodeLine
  cases String.fromUTF8? ⟨bytes.toArray⟩ <;> simp

theorem decodeLine_eq_error_iff {fault : ReadFault} :
    decodeLine bytes = .error fault ↔ ¬Text.IsUtf8 bytes ∧ fault = .notUtf8 := by
  simp only [Text.IsUtf8, ← decodeLine_eq_ok_iff]
  unfold decodeLine
  cases String.fromUTF8? ⟨bytes.toArray⟩ <;> simp [eq_comm]

end

/-- **A file is read like the text that it holds.** -/
theorem ofFile_utf8 {files : Files} {file text : String} (h : files file = .ok text.toUTF8) :
    ofFile files file = ofText file text := by
  unfold ofFile ofText
  rw [h]
  show ofLines file ((Text.byteLines (Text.utf8 text)).map decodeLine) = _
  rw [Text.byteLines_utf8, List.map_map]
  congr 1
  exact List.map_congr_left fun line _ => decodeLine_eq_ok_iff.mpr rfl

/-! ### Reports of lines -/

/-- What is reported of a line of bytes with its number: that it cannot be decoded, for the file as a
whole, or else what is wrong with it if it should hold a rule. -/
inductive LineReport (file : String) (line : List UInt8 × Nat) : Located Fault → Prop
  | unreadable : ¬Text.IsUtf8 line.1 → LineReport file line ⟨.wholeFile file, .unreadable .notUtf8⟩
  | faulty {text : String} {fault : Fault} :
      Text.utf8 text = line.1 → HoldsRule text → LineFault text fault →
      LineReport file line ⟨⟨file, line.2⟩, fault⟩

theorem LineReport.ne_malformed {file : String} {line : List UInt8 × Nat} {error : Located Fault}
    (h : LineReport file line error) (problem : Problem) : error.fault ≠ .malformed problem := by
  rcases h with _ | ⟨-, -, hfault⟩
  · simp
  · cases hfault <;> simp

/-- Whether a line of bytes is passed on with its number. -/
def matters (line : List UInt8 × Nat) : Bool :=
  match decodeLine line.1 with
  | .ok text => RuleLine.isRuleLine text
  | .error _ => true

theorem numbered_decodeLine (lines : List (List UInt8)) :
    numbered (lines.map decodeLine) =
      ((lines.zipIdx 1).filter matters).map (Prod.map decodeLine id) := by
  unfold numbered
  rw [List.zipIdx_map, List.filter_map]
  rfl

theorem lineReport_iff {file : String} {line : List UInt8 × Nat} {error : Located Fault} :
    LineReport file line error ↔
      matters line = true ∧ readLine file (Prod.map decodeLine id line) = .error error := by
  obtain ⟨bytes, number⟩ := line
  cases hdecode : decodeLine bytes with
  | error fault =>
      obtain ⟨hinvalid, rfl⟩ := decodeLine_eq_error_iff.mp hdecode
      simp only [matters, readLine, Prod.map_fst, hdecode, Except.error.injEq, true_and]
      constructor
      · rintro (_ | ⟨hutf8, -, -⟩)
        · rfl
        · exact absurd ⟨_, hutf8⟩ hinvalid
      · rintro rfl
        exact .unreadable hinvalid
  | ok text =>
      have hutf8 := decodeLine_eq_ok_iff.mp hdecode
      have hline : Prod.map decodeLine id (bytes, number) = Prod.map .ok id (text, number) := by
        simp [hdecode]
      simp only [matters, hdecode, ← holdsRule_iff]
      rw [hline]
      constructor
      · rintro (hinvalid | ⟨hother, hholds, hfault⟩)
        · exact absurd ⟨text, hutf8⟩ hinvalid
        · obtain rfl := Text.utf8_injective (hother.trans hutf8.symm)
          exact ⟨hholds, (readLine_eq_error_iff hholds).mpr ⟨hfault, rfl⟩⟩
      · rintro ⟨hholds, hread⟩
        obtain ⟨hfault, hlocation⟩ := (readLine_eq_error_iff hholds).mp hread
        obtain ⟨location, fault⟩ := error
        simp only at hlocation
        exact hlocation ▸ .faulty hutf8 hholds hfault

/-! ### Files that are no text -/

theorem exists_reported (file : String) (lines : List (List UInt8)) :
    ∃ reported, reported.Sublist (lines.zipIdx 1) ∧
      (∀ line ∈ lines.zipIdx 1, line ∈ reported ↔ ∃ error, LineReport file line error) ∧
      List.Forall₂ (LineReport file) reported
        (partition ((numbered (lines.map decodeLine)).map (readLine file))).1 := by
  refine ⟨((lines.zipIdx 1).filter matters).filter fun line =>
    !(readLine file (Prod.map decodeLine id line)).isOk, ?_, fun line hline => ?_, ?_⟩
  · exact List.filter_sublist.trans List.filter_sublist
  · rw [List.mem_filter, List.mem_filter, not_isOk_iff]
    simp only [lineReport_iff, exists_and_left, hline, true_and]
  · rw [numbered_decodeLine, List.map_map]
    have hmatters : ∀ line ∈ ((lines.zipIdx 1).filter matters).filter fun line =>
        !(readLine file (Prod.map decodeLine id line)).isOk, matters line = true :=
      fun line hline => (List.mem_filter.mp (List.mem_filter.mp hline).1).2
    exact ((List.forall₂_and_left _ _).mpr ⟨hmatters, forall₂_partition_fst⟩).imp
      fun _ _ => lineReport_iff.mpr

/-- Bytes that are no text have a line that cannot be decoded. -/
theorem exists_undecodable {bytes : ByteArray} (h : ¬bytes.IsValidUTF8) :
    ∃ line ∈ (Text.byteLines bytes.data.toList).zipIdx 1, ¬Text.IsUtf8 line.1 := by
  by_contra hall
  push Not at hall
  have hlines : ∀ line ∈ Text.byteLines bytes.data.toList, Text.IsUtf8 line := by
    intro line hline
    obtain ⟨i, hi⟩ := List.getElem?_of_mem hline
    exact hall (line, 1 + i) (List.mk_add_mem_zipIdx_iff_getElem?.mpr hi)
  obtain ⟨text, htext⟩ := Text.IsUtf8.of_byteLines hlines
  rw [← toUTF8_eq_iff.mpr htext] at h
  exact h text.isValidUTF8

/-- What is reported of a file that holds no text: of each line in turn what is wrong with it. -/
theorem ofFile_of_not_utf8 {files : Files} {file : String} {bytes : ByteArray}
    (hbytes : files file = .ok bytes) (hinvalid : ¬bytes.IsValidUTF8) :
    ∃ errors reported, ofFile files file = .error errors ∧
      reported.Sublist ((Text.byteLines bytes.data.toList).zipIdx 1) ∧
      (∀ line ∈ (Text.byteLines bytes.data.toList).zipIdx 1,
        line ∈ reported ↔ ∃ error, LineReport file line error) ∧
      List.Forall₂ (LineReport file) reported errors ∧ ∃ line ∈ reported, ¬Text.IsUtf8 line.1 := by
  obtain ⟨reported, hsublist, hmem, hreports⟩ :=
    exists_reported file (Text.byteLines bytes.data.toList)
  obtain ⟨line, hline, hundecodable⟩ := exists_undecodable hinvalid
  have hreported := (hmem line hline).mpr ⟨_, .unreadable hundecodable⟩
  refine ⟨_, reported, ?_, hsublist, hmem, hreports, line, hreported, hundecodable⟩
  unfold ofFile ofBytes
  rw [hbytes]
  refine ofLines_eq_error fun hnone => ?_
  rw [hnone, List.forall₂_nil_right_iff] at hreports
  rw [hreports] at hreported
  exact absurd hreported List.not_mem_nil

theorem ofFile_eq_ok_iff {files : Files} {file : String} {g : Grammar} :
    ofFile files file = .ok g ↔
      ∃ text : String, files file = .ok text.toUTF8 ∧ ofText file text = .ok g := by
  constructor
  · intro h
    cases hbytes : files file with
    | error fault =>
        rw [ofFile, hbytes] at h
        exact nomatch h
    | ok bytes =>
        by_cases hvalid : bytes.IsValidUTF8
        · have htext : files file = .ok (String.fromUTF8 bytes hvalid).toUTF8 := hbytes
          exact ⟨_, rfl, ofFile_utf8 htext ▸ h⟩
        · obtain ⟨errors, -, herrors, -⟩ := ofFile_of_not_utf8 hbytes hvalid
          rw [herrors] at h
          exact nomatch h
  · rintro ⟨text, hbytes, hread⟩
    rw [ofFile_utf8 hbytes, hread]

/-- **Reading a file is reading its text.**  A file that holds an encoded text is read like the text.
For a file that holds no encoded text faults of lines are reported and nothing else: one for each line
that cannot be decoded, of which there is one at least, and one for each line that can be decoded but
is faulty, in the order and with the numbers of all lines. -/
theorem ofFile_decodes_exactly (files : Files) (file : String) :
    (∀ text : String, files file = .ok text.toUTF8 → ofFile files file = ofText file text) ∧
    ∀ bytes : ByteArray, files file = .ok bytes → ¬bytes.IsValidUTF8 →
      ∃ errors reported, ofFile files file = .error errors ∧
        reported.Sublist ((Text.byteLines bytes.data.toList).zipIdx 1) ∧
        (∀ line ∈ (Text.byteLines bytes.data.toList).zipIdx 1,
          line ∈ reported ↔ ∃ error, LineReport file line error) ∧
        List.Forall₂ (LineReport file) reported errors ∧
        (∃ line ∈ reported, ¬Text.IsUtf8 line.1) ∧
        ∀ error ∈ errors, ∀ problem, error.fault ≠ .malformed problem := by
  refine ⟨fun text => ofFile_utf8, fun bytes hbytes hinvalid => ?_⟩
  obtain ⟨errors, reported, hread, hsublist, hmem, hreports, hundecodable⟩ :=
    ofFile_of_not_utf8 hbytes hinvalid
  refine ⟨errors, reported, hread, hsublist, hmem, hreports, hundecodable, ?_⟩
  have hline := hreports.flip.imp fun error line (h : LineReport file line error) =>
    And.intro h.ne_malformed h
  exact ((List.forall₂_and_left _ _).mp hline).1

/-- A text with both kinds of line ends; and a rule without an equals sign behind a comment whose second
byte cannot be decoded. -/
def sampleFiles : Files := fun file =>
  if file = "text" then .ok "S = 'ä'\r\nS = S S".toUTF8
  else .ok ⟨#[0x3B, 0xE4, 0x0D, 0x0A, 0x53, 0x20, 0x53]⟩

/-- The text is read.  Of the other file the comment is reported, for the file as a whole, and the rule
at its number. -/
theorem ofFile_decodes_sampleFiles :
    ofFile sampleFiles "text" = ofText "text" "S = 'ä'\r\nS = S S" ∧
    ofFile sampleFiles "latin" =
      .error [⟨.wholeFile "latin", .unreadable .notUtf8⟩, ⟨⟨"latin", 2⟩, .missingEquals⟩] := by
  have hinvalid : ¬ByteArray.IsValidUTF8 ⟨#[0x3B, 0xE4, 0x0D, 0x0A, 0x53, 0x20, 0x53]⟩ := by
    decide +kernel
  have hlines : (Text.byteLines [0x3B, 0xE4, 0x0D, 0x0A, 0x53, 0x20, 0x53]).zipIdx 1 =
      [([0x3B, 0xE4], 1), ([0x53, 0x20, 0x53], 2)] := by decide
  have hfirst : ∀ error, LineReport "latin" ([0x3B, 0xE4], 1) error ↔
      error = ⟨.wholeFile "latin", .unreadable .notUtf8⟩ := by
    have hread : readLine "latin" (Prod.map decodeLine id ([0x3B, 0xE4], 1)) =
        .error ⟨.wholeFile "latin", .unreadable .notUtf8⟩ := by decide +kernel
    have hmatters : matters ([0x3B, 0xE4], 1) = true := by decide +kernel
    intro error
    rw [lineReport_iff, hread]
    simp [hmatters, eq_comm]
  have hsecond : ∀ error, LineReport "latin" ([0x53, 0x20, 0x53], 2) error ↔
      error = ⟨⟨"latin", 2⟩, .missingEquals⟩ := by
    have hread : readLine "latin" (Prod.map decodeLine id ([0x53, 0x20, 0x53], 2)) =
        .error ⟨⟨"latin", 2⟩, .missingEquals⟩ := by decide +kernel
    have hmatters : matters ([0x53, 0x20, 0x53], 2) = true := by decide +kernel
    intro error
    rw [lineReport_iff, hread]
    simp [hmatters, eq_comm]
  refine ⟨(ofFile_decodes_exactly sampleFiles "text").1 _ rfl, ?_⟩
  obtain ⟨errors, reported, hread, hsublist, hmem, hreports, -⟩ :=
    (ofFile_decodes_exactly sampleFiles "latin").2 _ rfl hinvalid
  rw [hlines] at hsublist hmem
  simp only [List.forall_mem_cons, hfirst, hsecond, exists_eq, iff_true] at hmem
  have hsubset : [([0x3B, 0xE4], 1), ([0x53, 0x20, 0x53], 2)] ⊆ reported := by
    simp [hmem.1, hmem.2.1]
  have hlength := (List.subperm_of_subset (by decide) hsubset).length_le
  obtain rfl := hsublist.eq_of_length_le hlength
  obtain ⟨first, rest, hone, hrest, rfl⟩ := List.forall₂_cons_left_iff.mp hreports
  obtain ⟨second, none, htwo, hnone, rfl⟩ := List.forall₂_cons_left_iff.mp hrest
  rw [hread, (hfirst first).mp hone, (hsecond second).mp htwo, List.forall₂_nil_left_iff.mp hnone]

end ParseForest.GrammarText
