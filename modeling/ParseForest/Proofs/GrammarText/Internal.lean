import ParseForest.GrammarText.Indexed
import ParseForest.Proofs.GrammarText.File

/-! # The reader is never at fault itself

Two faults say that the reader has made a mistake: that it has taken a blank line for a rule, or that it
has left a bar in an alternative.  Neither is ever reported.  A line is taken for a rule where it has a
character that is no white space and begins no comment, and there a token begins
(`HoldsRule.ofLine_ne_nil`), so what is wrong with it is one of the other faults
(`LineFault.not_internal`).  An alternative stands between two bars, so it has none inside
(`not_mem_of_mem_splitOn`).  And the right-hand side is sliced only behind two tokens that are there
(`ofPlaces?_eq`). -/

namespace ParseForest

/-- The fault is a mistake of the reader, whatever the text. -/
inductive Fault.Internal : Fault → Prop
  | blankLine : Internal .unexpectedBlankLine
  | unsplit : Internal .unsplitAlternatives

namespace RuleLine

/-- Wherever the right-hand side is sliced, two tokens stand before it. -/
theorem ofPlaces?_eq (location : Location) (tokens : List Token) :
    ofPlaces? location tokens = some (ofTokens location tokens) := by
  unfold ofPlaces?
  match tokens with
  | [] | .equals :: _ | .bar :: _ | .terminal _ :: _ => rfl
  | [.nonterminal _] => rfl
  | .nonterminal name :: second :: right =>
      have hslice : sliceFrom? 2 (.nonterminal name :: second :: right) = some right := by
        simp [sliceFrom?]
      cases second with
      | equals => simp [hslice, ofTokens]
      | bar | nonterminal | terminal => simp [ofTokens]

end RuleLine

namespace GrammarText

variable {file : String} {fault : Fault} {error : Located Fault} {errors : List (Located Fault)}

theorem alternativeOfTokens_ne_unsplit {tokens part : List Token} (h : part ∈ tokens.splitOn .bar) :
    RuleLine.alternativeOfTokens part ≠ .error .unsplitAlternatives := by
  rw [alternativeOfTokens_eq (not_mem_of_mem_splitOn h)]
  split
  · simp
  · simp

theorem LineFault.not_internal {line : String} (h : LineFault line fault) : ¬fault.Internal := by
  cases h <;> exact nofun

theorem not_internal_of_readLine {lines : List LineRead} {line : LineRead × Nat}
    (hline : line ∈ numbered lines) (h : readLine file line = .error error) :
    ¬error.fault.Internal := by
  obtain ⟨read, number⟩ := line
  cases read with
  | error fault =>
      obtain rfl := Except.error.inj h
      exact nofun
  | ok text =>
      have hholds : HoldsRule text := holdsRule_iff.mpr (List.mem_filter.mp hline).2
      have hread : readLine file (Prod.map .ok id (text, number)) = .error error := h
      exact ((readLine_eq_error_iff hholds).mp hread).1.not_internal

theorem not_internal_of_ofRuleLines {rules : List RuleLine}
    (h : ofRuleLines file rules = .error errors) : ∀ error ∈ errors, ¬error.fault.Internal := by
  unfold ofRuleLines at h
  simp only at h
  split at h
  · exact nomatch h
  · obtain rfl := Except.error.inj h
    rw [List.forall_mem_map]
    exact fun _ _ => nofun

theorem not_internal_of_ofLines {lines : List LineRead} (h : ofLines file lines = .error errors) :
    ∀ error ∈ errors, ¬error.fault.Internal := by
  by_cases hnone : (partition ((numbered lines).map (readLine file))).1 = []
  · unfold ofLines at h
    split at h
    · exact not_internal_of_ofRuleLines h
    · rename_i heq
      rw [heq] at hnone
      exact absurd hnone (List.cons_ne_nil _ _)
  · rw [ofLines_eq_error hnone] at h
    obtain rfl := Except.error.inj h
    intro error herror
    obtain ⟨line, hline, hread⟩ := List.mem_map.mp (mem_partition_fst.mp herror)
    exact not_internal_of_readLine hline hread

theorem not_internal_of_ofFile {files : Files} (h : ofFile files file = .error errors) :
    ∀ error ∈ errors, ¬error.fault.Internal := by
  unfold ofFile at h
  split at h
  · exact not_internal_of_ofLines h
  · obtain rfl := Except.error.inj h
    exact List.forall_mem_singleton.mpr nofun

/-- **No text makes the reader blame itself.**  Whatever is reported of a text, or of a file with whatever
bytes, is no internal fault: a line that is taken for a rule has a token as soon as it has tokens at all,
a part of a right-hand side between its bars has no bar in it and is not found unsplit, and by the places
of its tokens any line is read with the same result, so that no slice begins beyond the end. -/
theorem internal_faults_unreachable :
    (∀ (file text : String) (errors : List (Located Fault)), ofText file text = .error errors →
      ∀ error ∈ errors, ¬error.fault.Internal) ∧
    (∀ (files : Files) (file : String) (errors : List (Located Fault)),
      ofFile files file = .error errors → ∀ error ∈ errors, ¬error.fault.Internal) ∧
    (∀ (line : String) (tokens : List Token), RuleLine.isRuleLine line = true →
      Token.ofLine line = .ok tokens → tokens ≠ []) ∧
    (∀ tokens : List Token, ∀ part ∈ tokens.splitOn .bar,
      .bar ∉ part ∧ RuleLine.alternativeOfTokens part ≠ .error .unsplitAlternatives) ∧
    ∀ (location : Location) (tokens : List Token),
      RuleLine.ofPlaces? location tokens = some (RuleLine.ofTokens location tokens) := by
  refine ⟨fun file text errors h => not_internal_of_ofLines h,
    fun files file errors h => not_internal_of_ofFile h, fun line tokens hline htokens => ?_,
    fun tokens part hpart => ?_, RuleLine.ofPlaces?_eq⟩
  · rintro rfl
    exact (holdsRule_iff.mpr hline).ofLine_ne_nil htokens
  · exact ⟨not_mem_of_mem_splitOn hpart, alternativeOfTokens_ne_unsplit hpart⟩

/-- A comment behind a no-break space, a line with an ideographic space alone, a rule of empty parts, and two
faulty lines of equals signs and bars. -/
def blankishText : String :=
  "\u00a0\u2003; comment\n\u3000\nS = | 'a' ||\n| = |\nS -> =\u2028"

/-- A file with a comment that is no text, and a line without an equals sign. -/
def garbledFiles : Files := fun _ => .ok ⟨#[0x3B, 0xE4, 0x0A, 0x53, 0x20, 0x53]⟩

/-- What is wrong in these, a line behind a no-break space, and a right-hand side of bars. -/
theorem internal_faults_unreachable_blankishText :
    ofText "g" blankishText =
      .error [⟨⟨"g", 4⟩, .missingNonterminal⟩, ⟨⟨"g", 5⟩, .unexpectedEquals⟩] ∧
    (∀ error ∈ [(⟨⟨"g", 4⟩, .missingNonterminal⟩ : Located Fault), ⟨⟨"g", 5⟩, .unexpectedEquals⟩],
      ¬error.fault.Internal) ∧
    ofFile garbledFiles "g" =
      .error [⟨.wholeFile "g", .unreadable .notUtf8⟩, ⟨⟨"g", 2⟩, .missingEquals⟩] ∧
    (∀ error ∈ [(⟨.wholeFile "g", .unreadable .notUtf8⟩ : Located Fault), ⟨⟨"g", 2⟩, .missingEquals⟩],
      ¬error.fault.Internal) ∧
    RuleLine.isRuleLine "\u00a0S =\u2003" = true ∧
    Token.ofLine "\u00a0S =\u2003" = .ok [.nonterminal "S", .equals] ∧
    [Token.nonterminal "S", .equals] ≠ [] ∧
    [Token.bar, .equals, .bar].splitOn .bar = [[], [.equals], []] ∧
    (∀ part ∈ [[], [Token.equals], []], .bar ∉ part ∧
      RuleLine.alternativeOfTokens part ≠ .error .unsplitAlternatives) ∧
    RuleLine.ofPlaces? ⟨"g", 1⟩ [.nonterminal "S", .equals] = some (.ok ⟨"S", [[]], ⟨"g", 1⟩⟩) := by
  obtain ⟨htext, hfile, hline, hparts, hslice⟩ := internal_faults_unreachable
  have hfaults : ofText "g" blankishText =
      .error [⟨⟨"g", 4⟩, .missingNonterminal⟩, ⟨⟨"g", 5⟩, .unexpectedEquals⟩] := by decide +kernel
  have hgarbled : ofFile garbledFiles "g" =
      .error [⟨.wholeFile "g", .unreadable .notUtf8⟩, ⟨⟨"g", 2⟩, .missingEquals⟩] := by
    decide +kernel
  have hrule : RuleLine.isRuleLine "\u00a0S =\u2003" = true := by decide +kernel
  have htokens : Token.ofLine "\u00a0S =\u2003" = .ok [.nonterminal "S", .equals] := by
    decide +kernel
  have hsplit : [Token.bar, .equals, .bar].splitOn .bar = [[], [.equals], []] := by decide
  refine ⟨hfaults, htext "g" blankishText _ hfaults, hgarbled, hfile garbledFiles "g" _ hgarbled, hrule,
    htokens, hline _ _ hrule htokens, hsplit, ?_, hslice _ _⟩
  rw [← hsplit]
  exact hparts [.bar, .equals, .bar]

end GrammarText

end ParseForest
