import Mathlib.Data.List.TakeWhile
import ParseForest.Proofs.GrammarText.RoundTrip
import ParseForest.Proofs.GrammarText.Spacing

/-! # Comments and blank lines are inert

Reading a grammar looks at the places of its lines only to report them.  So when the lines are at other
places, the same grammar is read, and the same errors are reported at the other places
(`ofLines_relocate`).  A line that holds no rule leaves nothing behind but the numbers of the lines after
it (`ofLines_insert`).

In a text the end of a line may also be spelled differently after an insertion, since a carriage return
belongs to it only before a line feed, and an empty line at the end is none.  But a carriage return is white
space: a text is read as its pieces between line feeds are (`ofText_intercalate`).  From both follows what a
comment or a blank line in a text does (`ofText_insert`). -/

namespace ParseForest

variable {place : Location → Location} {file : String} {number number' : Nat}

/-- A rule at another place. -/
def RuleLine.relocate (place : Location → Location) (rule : RuleLine) : RuleLine :=
  { rule with location := place rule.location }

/-- The same, reported at another place. -/
def Located.relocate {ε : Type} (place : Location → Location) (error : Located ε) : Located ε :=
  { error with location := place error.location }

/-- Where a place of a file is after one more line was inserted behind the first ones. -/
def Location.pushed (count : Nat) (location : Location) : Location :=
  if count < location.line then ⟨location.file, location.line + 1⟩ else location

theorem Location.pushed_wholeFile (count : Nat) (file : String) :
    pushed count (wholeFile file) = wholeFile file :=
  if_neg (Nat.not_lt_zero count)

/-! ### Rules at other places -/

theorem RuleLine.ofTokens_relocate (location : Location) (tokens : List Token) :
    ofTokens (place location) tokens =
      (ofTokens location tokens).map (RuleLine.relocate place) := by
  unfold ofTokens
  split
  · rfl
  · rename_i name right
    cases alternativesOfTokens right <;> rfl
  · rfl
  · rfl

theorem RuleLine.ofLine_relocate (location : Location) (line : String) :
    ofLine (place location) line = (ofLine location line).map (RuleLine.relocate place) := by
  unfold ofLine
  cases Token.ofLine line with
  | error fault => rfl
  | ok tokens => exact ofTokens_relocate location tokens

namespace GrammarText

/-- A rule or an error of a line, at another place. -/
def relocateReading (place : Location → Location) (reading : Except (Located Fault) RuleLine) :
    Except (Located Fault) RuleLine :=
  (reading.map (RuleLine.relocate place)).mapError (Located.relocate place)

theorem readLine_relocate (hfile : place (.wholeFile file) = .wholeFile file)
    (hline : place ⟨file, number⟩ = ⟨file, number'⟩) (line : LineRead) :
    readLine file (line, number') = relocateReading place (readLine file (line, number)) := by
  unfold readLine
  cases line with
  | error fault =>
      simp only [relocateReading, Except.map, Except.mapError, Located.relocate, hfile]
  | ok text =>
      simp only [← hline, RuleLine.ofLine_relocate ⟨file, number⟩ text]
      cases RuleLine.ofLine ⟨file, number⟩ text <;> rfl

theorem concerns_relocate (problem : Problem) :
    concerns problem ∘ RuleLine.relocate place = concerns problem := by
  funext rule
  cases problem <;> rfl

theorem locate_relocate (hfile : place (.wholeFile file) = .wholeFile file) (rules : List RuleLine)
    (problem : Problem) :
    locate file (rules.map (RuleLine.relocate place)) problem =
      place (locate file rules problem) := by
  unfold locate
  rw [List.find?_map, concerns_relocate]
  cases rules.find? (concerns problem) with
  | none => exact hfile.symm
  | some rule => rfl

theorem ofRuleLines_relocate (hfile : place (.wholeFile file) = .wholeFile file)
    (rules : List RuleLine) :
    ofRuleLines file (rules.map (RuleLine.relocate place)) =
      (ofRuleLines file rules).mapError (List.map (Located.relocate place)) := by
  have hstart : (rules.map (RuleLine.relocate place)).head?.map RuleLine.name =
      rules.head?.map RuleLine.name := by
    rw [List.head?_map, Option.map_map]
    rfl
  have hentries : (rules.map (RuleLine.relocate place)).map
        (fun rule => (Symbol.nonterminal rule.name, rule.alternatives)) =
      rules.map fun rule => (Symbol.nonterminal rule.name, rule.alternatives) := by
    rw [List.map_map]
    rfl
  unfold ofRuleLines
  simp only [hstart, hentries]
  split
  · rfl
  · rename_i malformed _
    simp only [Except.mapError, List.map_map, Except.error.injEq]
    refine List.map_congr_left fun problem _ => ?_
    rw [Function.comp_apply, locate_relocate hfile]
    rfl

/-! ### Lines at other places -/

/-- What a line comes to: a rule, or what is wrong, or nothing if it is blank or a comment. -/
def reading? (file : String) : LineRead × Nat → Option (Except (Located Fault) RuleLine)
  | (.ok text, number) =>
    if RuleLine.isRuleLine text then some (readLine file (.ok text, number)) else none
  | (.error fault, number) => some (readLine file (.error fault, number))

/-- What some lines come to, the first of them with the given number. -/
def readings (file : String) (lines : List LineRead) (number : Nat) :
    List (Except (Located Fault) RuleLine) :=
  (lines.zipIdx number).filterMap (reading? file)

theorem readings_cons (line : LineRead) (lines : List LineRead) :
    readings file (line :: lines) number =
      (reading? file (line, number)).toList ++ readings file lines (number + 1) := by
  unfold readings
  rw [List.zipIdx_cons, List.filterMap_cons]
  cases reading? file (line, number) <;> rfl

theorem readings_append (before after : List LineRead) :
    readings file (before ++ after) number =
      readings file before number ++ readings file after (number + before.length) := by
  unfold readings
  rw [List.zipIdx_append, List.filterMap_append]

theorem map_readLine_numbered (lines : List LineRead) :
    (numbered lines).map (readLine file) = readings file lines 1 := by
  unfold numbered readings
  induction lines.zipIdx 1 with
  | nil => rfl
  | cons line lines ih =>
      obtain ⟨line, number⟩ := line
      cases line with
      | error fault =>
          rw [List.filter_cons_of_pos rfl, List.map_cons, ih]
          rfl
      | ok text =>
          simp only [List.filter_cons, List.filterMap_cons, reading?]
          split
          · rw [List.map_cons, ih]
          · exact ih

theorem reading?_relocate (hfile : place (.wholeFile file) = .wholeFile file)
    (hline : place ⟨file, number⟩ = ⟨file, number'⟩) (line : LineRead) :
    reading? file (line, number') = (reading? file (line, number)).map (relocateReading place) := by
  cases line with
  | error fault => rw [reading?, reading?, Option.map_some, readLine_relocate hfile hline]
  | ok text =>
      rw [reading?, reading?, readLine_relocate hfile hline]
      cases RuleLine.isRuleLine text <;> rfl

theorem readings_relocate (hfile : place (.wholeFile file) = .wholeFile file)
    {lines : List LineRead}
    (hlines : ∀ i < lines.length, place ⟨file, number + i⟩ = ⟨file, number' + i⟩) :
    readings file lines number' = (readings file lines number).map (relocateReading place) := by
  induction lines generalizing number number' with
  | nil => rfl
  | cons line lines ih =>
      have hfirst : place ⟨file, number⟩ = ⟨file, number'⟩ := hlines 0 (Nat.succ_pos _)
      have hrest : ∀ i < lines.length, place ⟨file, number + 1 + i⟩ = ⟨file, number' + 1 + i⟩ := by
        intro i hi
        have hnext := hlines (i + 1) (Nat.succ_lt_succ hi)
        rwa [Nat.add_comm i 1, ← Nat.add_assoc, ← Nat.add_assoc] at hnext
      rw [readings_cons, readings_cons, List.map_append, ih hrest, reading?_relocate hfile hfirst line]
      cases reading? file (line, number) <;> rfl

theorem partition_relocate (readings : List (Except (Located Fault) RuleLine)) :
    partition (readings.map (relocateReading place)) =
      ((partition readings).1.map (Located.relocate place),
        (partition readings).2.map (RuleLine.relocate place)) := by
  induction readings with
  | nil => rfl
  | cons reading readings ih =>
      simp only [List.map_cons, partition, ih]
      cases reading <;> rfl

/-- **Lines at other places give the same grammar, and the same errors at the other places.** -/
theorem ofLines_relocate (hfile : place (.wholeFile file) = .wholeFile file)
    {lines lines' : List LineRead}
    (h : readings file lines' 1 = (readings file lines 1).map (relocateReading place)) :
    ofLines file lines' =
      (ofLines file lines).mapError (List.map (Located.relocate place)) := by
  unfold ofLines
  rw [map_readLine_numbered, map_readLine_numbered, h, partition_relocate]
  obtain ⟨faults, rules⟩ := partition (readings file lines 1)
  cases faults with
  | nil => exact ofRuleLines_relocate hfile rules
  | cons fault faults => rfl

theorem ofLines_congr {lines lines' : List LineRead}
    (h : readings file lines' 1 = readings file lines 1) : ofLines file lines' = ofLines file lines := by
  unfold ofLines
  rw [map_readLine_numbered, map_readLine_numbered, h]

/-- **A line without a rule pushes the lines behind it, and does nothing else.** -/
theorem ofLines_insert {line : String} (hline : RuleLine.isRuleLine line = false) (file : String)
    (before after : List LineRead) :
    ofLines file (before ++ .ok line :: after) =
      (ofLines file (before ++ after)).mapError
        (List.map (Located.relocate (Location.pushed before.length))) := by
  have hfile := Location.pushed_wholeFile before.length file
  have hbefore : ∀ i < before.length,
      Location.pushed before.length ⟨file, 1 + i⟩ = ⟨file, 1 + i⟩ := by
    intro i hi
    exact if_neg (by simp only; omega)
  have hafter : ∀ i < after.length, Location.pushed before.length ⟨file, 1 + before.length + i⟩ =
      ⟨file, 1 + before.length + 1 + i⟩ := by
    intro i _
    unfold Location.pushed
    rw [if_pos (by simp only; omega), Nat.add_right_comm _ 1 i]
  have hnone : reading? file (.ok line, 1 + before.length) = none := by
    simp only [reading?, hline, Bool.false_eq_true, if_false]
  apply ofLines_relocate hfile
  rw [readings_append, readings_append, readings_cons, hnone, Option.toList_none, List.nil_append,
    List.map_append, ← readings_relocate hfile hbefore, ← readings_relocate hfile hafter]

/-! ### Texts and their pieces -/

theorem isRuleLine_append_blank {line blank : String} (hblank : Text.IsBlank blank) :
    RuleLine.isRuleLine (line ++ blank) = RuleLine.isRuleLine line := by
  have hnone : blank.toList.dropWhile Text.isWhiteSpace = [] := List.dropWhile_eq_nil_iff.mpr hblank
  unfold RuleLine.isRuleLine Text.trimStart
  rw [String.toList_append, List.dropWhile_append, hnone]
  cases line.toList.dropWhile Text.isWhiteSpace <;> rfl

theorem reading?_append_blank {line blank : String} (hblank : Text.IsBlank blank) :
    reading? file (.ok (line ++ blank), number) = reading? file (.ok line, number) := by
  have htokens := Token.ofLine_surrounded Text.isBlank_empty hblank line
  rw [String.empty_append] at htokens
  simp only [reading?, readLine, RuleLine.ofLine, isRuleLine_append_blank hblank, htokens]

theorem reading?_dropReturn (piece : List Char) :
    reading? file (.ok (String.ofList (Text.dropReturn '\r' piece)), number) =
      reading? file (.ok (String.ofList piece), number) := by
  unfold Text.dropReturn
  split
  · rename_i hlast
    obtain ⟨before, rfl⟩ := List.getLast?_eq_some_iff.mp hlast
    rw [List.dropLast_concat, String.ofList_append]
    exact (reading?_append_blank (by decide)).symm
  · rfl

/-- Pieces between line feeds come to the same as the lines that they give. -/
theorem readings_linesOfPieces (pieces : List (List Char)) :
    readings file ((Text.linesOfPieces '\r' pieces).map fun piece => .ok (String.ofList piece)) number =
      readings file (pieces.map fun piece => .ok (String.ofList piece)) number := by
  induction pieces generalizing number with
  | nil => rfl
  | cons piece pieces ih =>
      cases pieces with
      | nil =>
          rw [Text.linesOfPieces]
          split
          · rename_i hempty
            rw [List.isEmpty_iff.mp hempty]
            rfl
          · rfl
      | cons next rest =>
          rw [Text.linesOfPieces, List.map_cons, List.map_cons, readings_cons, readings_cons,
            reading?_dropReturn, ih]

/-- **A text is read as its pieces between line feeds.** -/
theorem ofText_intercalate {lines : List String} (hfeed : ∀ line ∈ lines, '\n' ∉ line.toList)
    (file : String) : ofText file ("\n".intercalate lines) = ofLines file (lines.map .ok) := by
  by_cases hnil : lines = []
  · rw [hnil]
    rfl
  · have hpieces : ("\n".intercalate lines).toList.splitOn '\n' = lines.map String.toList := by
      rw [String.toList_intercalate]
      exact List.splitOn_intercalate '\n' (List.forall_mem_map.mpr hfeed)
        (fun h => hnil (List.map_eq_nil_iff.mp h))
    have hlines : lines.map .ok =
        (lines.map String.toList).map fun piece => (.ok (String.ofList piece) : LineRead) := by
      rw [List.map_map]
      exact List.map_congr_left fun line _ => congrArg Except.ok String.ofList_toList.symm
    unfold ofText Text.lines Text.linesBy
    rw [hpieces, List.map_map, hlines]
    exact ofLines_congr (readings_linesOfPieces _)

/-- **Comments and blank lines are inert.**  A line that holds no rule, inserted anywhere in the lines of a
text, leaves a grammar as it is.  Where the text is no grammar, the same is reported in the same order;
what was at a line behind the insertion is now one line further on, and everything else is where it was.
(The lines are joined by line feeds, so a text that ends with one has an empty last line.) -/
theorem ofText_insert (file : String) (before after : List String) (line : String)
    (hfeed : ∀ other ∈ before ++ line :: after, '\n' ∉ other.toList) (hline : ¬HoldsRule line) :
    (∀ g, ofText file ("\n".intercalate (before ++ after)) = .ok g →
      ofText file ("\n".intercalate (before ++ line :: after)) = .ok g) ∧
    ∀ errors, ofText file ("\n".intercalate (before ++ after)) = .error errors →
      ofText file ("\n".intercalate (before ++ line :: after)) =
        .error (errors.map (Located.relocate (Location.pushed before.length))) := by
  have hinert : RuleLine.isRuleLine line = false :=
    eq_false_of_ne_true fun htrue => hline (holdsRule_iff.mpr htrue)
  have hold : ∀ other ∈ before ++ after, '\n' ∉ other.toList := by
    intro other hother
    refine hfeed other ?_
    rw [List.mem_append] at hother ⊢
    exact hother.imp_right (List.mem_cons_of_mem line)
  have hinsert : ofText file ("\n".intercalate (before ++ line :: after)) =
      (ofText file ("\n".intercalate (before ++ after))).mapError
        (List.map (Located.relocate (Location.pushed before.length))) := by
    rw [ofText_intercalate hfeed, ofText_intercalate hold, List.map_append, List.map_append,
      List.map_cons, ofLines_insert hinert, List.length_map]
  rw [hinsert]
  constructor
  · intro g hg
    rw [hg]
    rfl
  · intro errors herrors
    rw [herrors]
    rfl

/-- Comments that look like rules, with errors on both sides, with an undefined name behind the comment,
before a grammar, and in a text without rules. -/
theorem ofText_insert_samples :
    ofText "g" ("\n".intercalate ["S A", "  ; it's = 'a", "", "'a' = B"]) =
      .error [⟨⟨"g", 1⟩, .missingEquals⟩, ⟨⟨"g", 4⟩, .missingNonterminal⟩] ∧
    ofText "g" ("\n".intercalate ["S = 'a'", "# S = C", "S = B\r", ""]) =
      .error [⟨⟨"g", 3⟩, .malformed (.undefinedNonterminal "B")⟩] ∧
    ofText "g" ("\n".intercalate ["\t\r", "A = 'a' | A\r"]) =
      .ok ⟨"A", [⟨"A", [[.terminal "a"], [.nonterminal "A"]]⟩]⟩ ∧
    ofText "g" ("\n".intercalate ["; A", "# A = 'a'"]) =
      .error [⟨⟨"g", 0⟩, .malformed (.missingStart "")⟩] := by
  refine ⟨?_, ?_, ?_, ?_⟩
  · exact (ofText_insert "g" ["S A"] ["", "'a' = B"] "  ; it's = 'a" (by decide) (by decide)).2
      [⟨⟨"g", 1⟩, .missingEquals⟩, ⟨⟨"g", 3⟩, .missingNonterminal⟩] (by decide +kernel)
  · exact (ofText_insert "g" ["S = 'a'"] ["S = B\r", ""] "# S = C" (by decide) (by decide)).2
      [⟨⟨"g", 2⟩, .malformed (.undefinedNonterminal "B")⟩] (by decide +kernel)
  · exact (ofText_insert "g" [] ["A = 'a' | A\r"] "\t\r" (by decide) (by decide)).1
      ⟨"A", [⟨"A", [[.terminal "a"], [.nonterminal "A"]]⟩]⟩ (by decide +kernel)
  · exact (ofText_insert "g" ["; A"] [] "# A = 'a'" (by decide) (by decide)).2
      [⟨⟨"g", 0⟩, .malformed (.missingStart "")⟩] (by decide +kernel)

end GrammarText

end ParseForest
