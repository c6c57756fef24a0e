import ParseForest.Proofs.GrammarText.Acceptance

/-! # What is reported of a text that is no grammar

If lines are faulty, their faults are all that is reported.  If none is, what is reported are the
problems of the clauses (`ofText_of_problems`).  For a text without rule lines that is the missing rule
of the start symbol.  For any other text it is its undefined names; such a name stands in a right-hand
side, so it is reported at a line, and at the first that uses it (`reportsUndefined_report`). -/

namespace ParseForest.GrammarText

variable {file text name : String}

/-! ### Where they are reported -/

theorem clauses_pairwise (text : String) :
    (clauses text).Pairwise fun a b => a.number < b.number := by
  unfold clauses
  rw [List.pairwise_filterMap]
  refine (ruleLines_pairwise text).imp fun hlt clause hclause other hother => ?_
  rw [(ofLine?_eq_some_iff.mp hclause).2.2, (ofLine?_eq_some_iff.mp hother).2.2]
  exact hlt

theorem clause_number_pos {clause : Clause} (h : clause ∈ clauses text) : 0 < clause.number := by
  obtain ⟨line, hline, hstates⟩ := List.mem_filterMap.mp h
  rw [(ofLine?_eq_some_iff.mp hstates).2.2]
  exact number_pos hline

theorem concerns_rule_iff {clause : Clause} :
    concerns (.undefinedNonterminal name) (clause.rule file) = true ↔
      .nonterminal name ∈ clause.right := by
  rw [← nonterminal_mem_flatten]
  exact decide_eq_true_iff

theorem reportsUndefined_report
    (h : ∃ clause ∈ clauses text, .nonterminal name ∈ clause.right) :
    ReportsUndefined file text name (report file text (.undefinedNonterminal name)) := by
  have hfound : ((clauses text).find? fun clause =>
      concerns (.undefinedNonterminal name) (clause.rule file)).isSome = true := by
    obtain ⟨clause, hclause, hright⟩ := h
    exact List.find?_isSome.mpr ⟨clause, hclause, concerns_rule_iff.mpr hright⟩
  obtain ⟨clause, hclause⟩ := Option.isSome_iff_exists.mp hfound
  have hlocation : (report file text (.undefinedNonterminal name)).location =
      ⟨file, clause.number⟩ := by
    unfold report locate
    rw [List.find?_map]
    simp only [Function.comp_def, hclause]
    rfl
  obtain ⟨hright, before, after, hsplit, hbefore⟩ := List.find?_eq_some_iff_append.mp hclause
  have hmem : clause ∈ clauses text := List.mem_of_find?_eq_some hclause
  refine ⟨rfl, ⟨clause, hmem, hlocation, concerns_rule_iff.mp hright, ?_⟩, ?_⟩
  · intro other hother hused
    have hsorted := clauses_pairwise text
    rw [hsplit, List.pairwise_append, List.pairwise_cons] at hsorted
    rw [hsplit, List.mem_append, List.mem_cons] at hother
    rcases hother with hother | rfl | hother
    · have hnot := hbefore other hother
      rw [concerns_rule_iff.mpr hused] at hnot
      exact absurd hnot (by decide)
    · exact Nat.le_refl _
    · exact Nat.le_of_lt (hsorted.2.1.1 other hother)
  · rw [hlocation]
    exact clause_number_pos hmem

theorem ReportsUndefined.unique {error other : Located Fault}
    (h : ReportsUndefined file text name error) (h' : ReportsUndefined file text name other) :
    error = other := by
  obtain ⟨location, fault⟩ := error
  obtain ⟨location', fault'⟩ := other
  obtain ⟨hfault, ⟨clause, hclause, hlocation, hright, hfirst⟩, -⟩ := h
  obtain ⟨hfault', ⟨clause', hclause', hlocation', hright', hfirst'⟩, -⟩ := h'
  have hnumber : clause.number = clause'.number :=
    Nat.le_antisymm (hfirst clause' hclause' hright') (hfirst' clause hclause hright)
  simp only at hfault hfault' hlocation hlocation'
  rw [hfault, hfault', hlocation, hlocation', hnumber]

/-! ### Reports -/

theorem ofText_of_problems (hall : AllClauses text) {problems : List Problem}
    (hproblems : Grammar.problems (.nonterminal (firstName text)) (clauseEntries text) = problems)
    (h : problems ≠ []) (file : String) :
    ofText file text = .error (problems.map (report file text)) := by
  subst hproblems
  rw [ofText_of_clauses hall, ofRuleLines_clauses, Grammar.ofRules_eq_error h]
  rfl

theorem ofText_of_no_lines (h : ruleLines text = []) (file : String) :
    ofText file text = .error [⟨.wholeFile file, .malformed (.missingStart "")⟩] := by
  have hall : AllClauses text := by
    unfold AllClauses
    rw [h]
    exact List.forall_mem_nil _
  have hclauses : clauses text = [] := by
    unfold clauses
    rw [h, List.filterMap_nil]
  rw [ofText_of_problems hall (problems_of_no_clauses hclauses) (List.cons_ne_nil _ _)]
  unfold report
  rw [hclauses]
  rfl

/-- Clauses that leave a name undefined are refused, with a report for each such name. -/
theorem ofText_of_undefined (hall : AllClauses text) (hne : ruleLines text ≠ [])
    (h : (undefinedNames text).eraseDups ≠ []) (file : String) :
    ofText file text = .error ((undefinedNames text).eraseDups.map fun name =>
      report file text (.undefinedNonterminal name)) := by
  have hproblems := problems_clauses ((clauses_ne_nil_iff hall).mpr hne)
  rw [ofText_of_problems hall hproblems (mt List.map_eq_nil_iff.mp h), List.map_map]
  rfl

/-- **What is reported, in which order and where.**  If some rule line is faulty, the errors are one
for each faulty rule line, in increasing order of the lines.  If none is, a text without rule lines has
the one error that the empty start symbol has no rule, for the file as a whole; and in any other text
the errors are one for each name that is used without being defined, each at the first line that uses
it, in the order in which these names first occur in the alternatives of the names defined, sorted.
If there is no such name, the text is a grammar. -/
theorem ofText_reports_exactly (file text : String) :
    ((∃ line ∈ ruleLines text, ∃ fault, LineFault line.1 fault) →
      ∃ errors, ofText file text = .error errors ∧
        errors.Pairwise (fun a b => a.location.line < b.location.line) ∧
        ∀ error, error ∈ errors ↔
          ∃ line ∈ ruleLines text, LineFault line.1 error.fault ∧
            error.location = ⟨file, line.2⟩) ∧
    ((∀ line ∈ ruleLines text, ∀ fault, ¬LineFault line.1 fault) →
      (ruleLines text = [] →
        ofText file text = .error [⟨.wholeFile file, .malformed (.missingStart "")⟩]) ∧
      (ruleLines text ≠ [] → ∃ names, FirstOccurrences (undefinedNames text) names ∧
        (∀ name, name ∈ names ↔
          (∃ clause ∈ clauses text, .nonterminal name ∈ clause.right) ∧
            name ∉ definedNames text) ∧
        (names = [] → ∃ g, ofText file text = .ok g) ∧
        (names ≠ [] → ∃ errors, ofText file text = .error errors ∧
          List.Forall₂ (ReportsUndefined file text) names errors))) := by
  refine ⟨fun hfaulty => ofText_of_fault hfaulty file, fun hfine => ⟨fun hnil => ?_, fun hne => ?_⟩⟩
  · exact ofText_of_no_lines hnil file
  · have hall : AllClauses text := by
      by_contra hnot
      obtain ⟨line, hline, fault, hfault⟩ := exists_fault_of_not_allClauses hnot
      exact hfine line hline fault hfault
    refine ⟨_, firstOccurrences_eraseDups _, fun name => ?_, fun hnil => ?_, fun hsome => ?_⟩
    · rw [List.mem_eraseDups]
      exact mem_undefinedNames_iff
    · have hproblems := problems_clauses ((clauses_ne_nil_iff hall).mpr hne)
      rw [hnil, List.map_nil] at hproblems
      exact ⟨_, ofText_eq_ok_iff.mpr ⟨hall, Grammar.ofRules_eq_ok_iff.mpr ⟨hproblems, rfl⟩⟩⟩
    · refine ⟨_, ofText_of_undefined hall hne hsome file, ?_⟩
      rw [List.forall₂_map_right_iff, List.forall₂_same]
      intro name hname
      exact reportsUndefined_report (mem_undefinedNames_iff.mp (List.mem_eraseDups.mp hname)).1

/-- Two names are used without being defined: `C` first in the text, `B` first in the sorted order. -/
def undefinedText : String :=
  "S = A \"x\" | C\n\n; A needs B\nA = \"a\" | B\n"

/-- Each kind of fault on a line of its own, among lines without faults. -/
def faultyText : String :=
  "S A\n; = =\n'a' = B\n\nS = 'a'\nS = A = B\n\"S = A"

/-- Undefined names, faulty lines and a text without rules, as they are reported. -/
theorem ofText_reports_samples :
    ofText "g" undefinedText = .error [⟨⟨"g", 4⟩, .malformed (.undefinedNonterminal "B")⟩,
      ⟨⟨"g", 1⟩, .malformed (.undefinedNonterminal "C")⟩] ∧
    (∃ errors, ofText "g" faultyText = .error errors ∧
      errors.Pairwise (fun a b => a.location.line < b.location.line) ∧
      ⟨⟨"g", 1⟩, .missingEquals⟩ ∈ errors ∧ ⟨⟨"g", 3⟩, .missingNonterminal⟩ ∈ errors ∧
      ⟨⟨"g", 6⟩, .unexpectedEquals⟩ ∈ errors ∧ ⟨⟨"g", 7⟩, .unmatchedQuote⟩ ∈ errors) ∧
    ofText "g" "\n; S = A\n" = .error [⟨⟨"g", 0⟩, .malformed (.missingStart "")⟩] := by
  refine ⟨?_, ?_, ?_⟩
  · have hclauses : clauses undefinedText =
        [⟨"S", [.nonterminal "A", .terminal "x", .bar, .nonterminal "C"], 1⟩,
          ⟨"A", [.terminal "a", .bar, .nonterminal "B"], 4⟩] := by decide +kernel
    have hstated : ∀ line ∈ ruleLines undefinedText, (Clause.ofLine? line).isSome = true := by
      decide +kernel
    have hfine : ∀ line ∈ ruleLines undefinedText, ∀ fault, ¬LineFault line.1 fault := by
      intro line hline fault
      obtain ⟨clause, hclause⟩ := Option.isSome_iff_exists.mp (hstated line hline)
      exact not_lineFault_of_clause hclause
    obtain ⟨names, hfirst, -, -, hrefused⟩ :=
      ((ofText_reports_exactly "g" undefinedText).2 hfine).2 (by decide)
    have hsorted : Text.sorted ["S", "A"] = ["A", "S"] := by
      rw [Text.sorted_eq_of_perm (List.Perm.swap "A" "S" [])]
      exact List.mergeSort_of_pairwise (by decide)
    have hnames : names = ["B", "C"] := by
      rw [firstOccurrences_iff.mp hfirst]
      unfold undefinedNames usedNames writtenAlternatives definedNames
      rw [hclauses]
      show (((Text.sorted ["S", "A"]).flatMap _).filter _).eraseDups = _
      rw [hsorted]
      decide
    obtain ⟨errors, hread, hreports⟩ := hrefused (hnames ▸ List.cons_ne_nil _ _)
    rw [hnames] at hreports
    obtain ⟨first, rest, hb, hrest, rfl⟩ := List.forall₂_cons_left_iff.mp hreports
    obtain ⟨second, none, hc, hnone, rfl⟩ := List.forall₂_cons_left_iff.mp hrest
    have hfirst : ReportsUndefined "g" undefinedText "B"
        ⟨⟨"g", 4⟩, .malformed (.undefinedNonterminal "B")⟩ :=
      ⟨rfl, ⟨_, hclauses ▸ List.mem_cons_of_mem _ List.mem_cons_self, rfl, by decide,
        hclauses ▸ by decide⟩, by decide⟩
    have hsecond : ReportsUndefined "g" undefinedText "C"
        ⟨⟨"g", 1⟩, .malformed (.undefinedNonterminal "C")⟩ :=
      ⟨rfl, ⟨_, hclauses ▸ List.mem_cons_self, rfl, by decide, hclauses ▸ by decide⟩, by decide⟩
    rw [hread, List.forall₂_nil_left_iff.mp hnone, hb.unique hfirst, hc.unique hsecond]
  · have hsecond : Token.ofLine "S A" = .ok [.nonterminal "S", .nonterminal "A"] := by
      decide +kernel
    have hfirst : Token.ofLine "'a' = B" = .ok [.terminal "a", .equals, .nonterminal "B"] := by
      decide +kernel
    have hright : Token.ofLine "S = A = B" =
        .ok [.nonterminal "S", .equals, .nonterminal "A", .equals, .nonterminal "B"] := by
      decide +kernel
    have hopen : Token.ofLine "\"S = A" = .error .unmatchedQuote := by decide +kernel
    have hunread : ∀ tokens, Token.ofLine "\"S = A" ≠ .ok tokens := by simp [hopen]
    have hfaulty : ∃ line ∈ ruleLines faultyText, ∃ fault, LineFault line.1 fault :=
      ⟨("S A", 1), by decide, _, .missingEquals hsecond (by decide)⟩
    obtain ⟨errors, hread, hsorted, hmem⟩ := (ofText_reports_exactly "g" faultyText).1 hfaulty
    refine ⟨errors, hread, hsorted, ?_, ?_, ?_, ?_⟩
    · exact (hmem _).mpr ⟨("S A", 1), by decide, .missingEquals hsecond (by decide), rfl⟩
    · exact (hmem _).mpr ⟨("'a' = B", 3), by decide, .missingNonterminal hfirst (fun _ => Token.noConfusion), rfl⟩
    · exact (hmem _).mpr ⟨("S = A = B", 6), by decide, .unexpectedEquals hright (by decide), rfl⟩
    · exact (hmem _).mpr ⟨("\"S = A", 7), by decide, .unmatchedQuote hunread, rfl⟩
  · have hlines : ruleLines "\n; S = A\n" = [] := by decide
    refine ((ofText_reports_exactly "g" "\n; S = A\n").2 ?_).1 hlines
    rw [hlines]
    exact List.forall_mem_nil _

end ParseForest.GrammarText
