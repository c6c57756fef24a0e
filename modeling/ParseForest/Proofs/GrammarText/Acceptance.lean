import ParseForest.Proofs.GrammarText.Problems
import ParseForest.Proofs.GrammarText.Reading

/-! # Which texts are grammars, and which grammars

A text is a grammar when each of its rule lines states a clause and the entries that the clauses give
are a grammar (`ofText_eq_ok_iff`), that is, when there is a clause and none uses a name that has none.
Said of the tokens of the lines, this decides which texts are accepted; the alternatives of a name are
the parts that its clauses write (`ofText_accepts_exactly`). -/

namespace ParseForest.GrammarText

variable {file text name : String} {clause : Clause}

/-! ### Clauses that make a grammar -/

/-- A problem of the clauses, reported where it is located. -/
def report (file text : String) (problem : Problem) : Located Fault :=
  ⟨locate file ((clauses text).map (Clause.rule file)) problem, .malformed problem⟩

theorem ofRuleLines_clauses (file text : String) :
    ofRuleLines file ((clauses text).map (Clause.rule file)) =
      (Grammar.ofRules (.nonterminal (firstName text)) (clauseEntries text)).mapError
        fun malformed => malformed.problems.map (report file text) := by
  have hstart : (((clauses text).map (Clause.rule file)).head?.map RuleLine.name).getD "" =
      firstName text := by
    unfold firstName
    rw [List.head?_map, Option.map_map]
    rfl
  have hentries : ((clauses text).map (Clause.rule file)).map
      (fun rule => (Symbol.nonterminal rule.name, rule.alternatives)) = clauseEntries text := by
    rw [List.map_map]
    rfl
  unfold ofRuleLines
  simp only [hstart, hentries]
  cases Grammar.ofRules (.nonterminal (firstName text)) (clauseEntries text) <;> rfl

/-- Every rule line states a clause. -/
def AllClauses (text : String) : Prop :=
  ∀ line ∈ ruleLines text, ∃ clause, Clause.ofLine? line = some clause

theorem exists_fault_of_not_allClauses (h : ¬AllClauses text) :
    ∃ line ∈ ruleLines text, ∃ fault, LineFault line.1 fault := by
  by_contra hnone
  refine h fun line hline => ?_
  apply (exists_clause_or_fault (holdsRule_of_mem hline) line.2).resolve_right
  exact fun hfault => hnone ⟨line, hline, hfault⟩

theorem ofText_eq_ok_iff {g : Grammar} :
    ofText file text = .ok g ↔
      AllClauses text ∧
        Grammar.ofRules (.nonterminal (firstName text)) (clauseEntries text) = .ok g := by
  by_cases hall : AllClauses text
  · rw [ofText_of_clauses hall, ofRuleLines_clauses, and_iff_right hall]
    cases Grammar.ofRules (.nonterminal (firstName text)) (clauseEntries text) <;>
      simp [Except.mapError]
  · obtain ⟨errors, herrors, -⟩ := ofText_of_fault (exists_fault_of_not_allClauses hall) file
    rw [herrors]
    exact ⟨nofun, fun h => absurd h.1 hall⟩

/-! ### Clauses and the tokens of lines -/

theorem allClauses_iff :
    AllClauses text ↔ ∀ line ∈ ruleLines text, ∃ name right,
      Token.ofLine line.1 = .ok (.nonterminal name :: .equals :: right) ∧ .equals ∉ right := by
  refine forall_congr' fun line => imp_congr_right fun _ => ?_
  simp only [ofLine?_eq_some_iff]
  constructor
  · rintro ⟨clause, htokens, hequals, -⟩
    exact ⟨clause.name, clause.right, htokens, hequals⟩
  · rintro ⟨name, right, htokens, hequals⟩
    exact ⟨⟨name, right, line.2⟩, htokens, hequals, rfl⟩

theorem clauses_ne_nil_iff (hall : AllClauses text) : clauses text ≠ [] ↔ ruleLines text ≠ [] := by
  refine not_congr ⟨fun hnil => ?_, fun hnil => ?_⟩
  · rw [List.eq_nil_iff_forall_not_mem]
    intro line hline
    obtain ⟨clause, hstates⟩ := hall line hline
    rw [List.filterMap_eq_nil_iff.mp hnil line hline] at hstates
    exact absurd hstates nofun
  · unfold clauses
    rw [hnil, List.filterMap_nil]

theorem mem_definedNames_iff (hall : AllClauses text) :
    name ∈ definedNames text ↔
      ∃ line ∈ ruleLines text, ∃ rest, Token.ofLine line.1 = .ok (.nonterminal name :: rest) := by
  constructor
  · intro h
    obtain ⟨clause, hclause, rfl⟩ := List.mem_map.mp h
    obtain ⟨line, hline, hstates⟩ := List.mem_filterMap.mp hclause
    exact ⟨line, hline, _, (ofLine?_eq_some_iff.mp hstates).1⟩
  · rintro ⟨line, hline, rest, htokens⟩
    obtain ⟨clause, hstates⟩ := hall line hline
    refine List.mem_map.mpr ⟨clause, List.mem_filterMap.mpr ⟨line, hline, hstates⟩, ?_⟩
    rw [(ofLine?_eq_some_iff.mp hstates).1] at htokens
    cases htokens
    rfl

theorem right_eq_of_append {line : String × Nat} (h : Clause.ofLine? line = some clause)
    {before right : List Token} (htokens : Token.ofLine line.1 = .ok (before ++ .equals :: right)) :
    right = clause.right := by
  obtain ⟨hline, hequals, -⟩ := ofLine?_eq_some_iff.mp h
  rw [hline, Except.ok.injEq] at htokens
  match before, htokens with
  | [_], htokens =>
      cases htokens
      rfl
  | _ :: _ :: before, htokens =>
      rw [List.cons_append, List.cons_append, List.cons.injEq, List.cons.injEq] at htokens
      rw [htokens.2.2] at hequals
      exact absurd (List.mem_append_right before List.mem_cons_self) hequals

/-- The clauses define what they use when each name behind an equals sign begins a line. -/
theorem closed_iff (hall : AllClauses text) :
    (∀ clause ∈ clauses text, ∀ name, .nonterminal name ∈ clause.right →
        name ∈ definedNames text) ↔
      ∀ line ∈ ruleLines text, ∀ before right name,
        Token.ofLine line.1 = .ok (before ++ .equals :: right) → .nonterminal name ∈ right →
        ∃ other ∈ ruleLines text, ∃ rest, Token.ofLine other.1 = .ok (.nonterminal name :: rest) := by
  constructor
  · intro h line hline before right name htokens hname
    obtain ⟨clause, hstates⟩ := hall line hline
    rw [right_eq_of_append hstates htokens] at hname
    apply (mem_definedNames_iff hall).mp
    exact h clause (List.mem_filterMap.mpr ⟨line, hline, hstates⟩) name hname
  · intro h clause hclause name hname
    obtain ⟨line, hline, hstates⟩ := List.mem_filterMap.mp hclause
    apply (mem_definedNames_iff hall).mpr
    exact h line hline [.nonterminal clause.name] clause.right name
      (ofLine?_eq_some_iff.mp hstates).1 hname

theorem exists_first_line (hall : AllClauses text) (hne : ruleLines text ≠ []) :
    ∃ line more rest, ruleLines text = line :: more ∧
      Token.ofLine line.1 = .ok (.nonterminal (firstName text) :: rest) := by
  obtain ⟨line, more, hlines⟩ := List.exists_cons_of_ne_nil hne
  obtain ⟨clause, hstates⟩ := hall line (hlines ▸ List.mem_cons_self)
  have hfirst : firstName text = clause.name := by
    unfold firstName clauses
    rw [hlines, List.filterMap_cons_some hstates]
    rfl
  exact ⟨line, more, _, hlines, hfirst ▸ (ofLine?_eq_some_iff.mp hstates).1⟩

/-! ### The grammar of a text -/

/-- **Which texts are read, and as which grammar.**  A text is read exactly when it has a rule line,
each rule line is a name, an equals sign and tokens without another equals sign, and every name
behind an equals sign begins a rule line.  The grammar then starts from the name that begins the first
rule line.  A name that begins a line has the alternatives that its lines write, one line after the
other: the parts between bars, empty ones too, without empty terminals, and with an alternative left
out where it comes again.  No other name has alternatives. -/
theorem ofText_accepts_exactly (file text : String) :
    ((∃ g, ofText file text = .ok g) ↔
      ruleLines text ≠ [] ∧
      (∀ line ∈ ruleLines text, ∃ name right,
        Token.ofLine line.1 = .ok (.nonterminal name :: .equals :: right) ∧ .equals ∉ right) ∧
      ∀ line ∈ ruleLines text, ∀ before right name,
        Token.ofLine line.1 = .ok (before ++ .equals :: right) → .nonterminal name ∈ right →
        ∃ other ∈ ruleLines text, ∃ rest, Token.ofLine other.1 = .ok (.nonterminal name :: rest)) ∧
    ∀ g, ofText file text = .ok g →
      (∃ line more rest, ruleLines text = line :: more ∧
        Token.ofLine line.1 = .ok (.nonterminal g.start :: rest)) ∧
      ∀ name,
        (name ∈ definedNames text → ∃ kept, g.alternatives? name = some kept ∧
          FirstOccurrences (writtenAlternatives text name) kept) ∧
        (name ∉ definedNames text → g.alternatives? name = none) := by
  constructor
  · simp only [ofText_eq_ok_iff, Grammar.ofRules_eq_ok_iff, exists_and_left, exists_eq, and_true]
    rw [problems_clauses_eq_nil_iff, ← allClauses_iff, and_left_comm (a := ruleLines text ≠ [])]
    refine and_congr_right fun hall => ?_
    rw [clauses_ne_nil_iff hall, closed_iff hall]
  · intro g hg
    obtain ⟨hall, hrules⟩ := ofText_eq_ok_iff.mp hg
    obtain ⟨hproblems, rfl⟩ := Grammar.ofRules_eq_ok_iff.mp hrules
    have hne := (clauses_ne_nil_iff hall).mp (problems_clauses_eq_nil_iff.mp hproblems).1
    refine ⟨exists_first_line hall hne, fun name => ⟨fun hname => ?_, fun hname => ?_⟩⟩
    · refine ⟨_, ?_, firstOccurrences_eraseDups _⟩
      rw [Grammar.alternatives?_gather, if_pos (nonterminal_mem_clauseEntries.mpr hname),
        offered_clauseEntries]
    · rw [Grammar.alternatives?_gather, if_neg (mt nonterminal_mem_clauseEntries.mp hname)]

/-- Clauses of `S` and `A` among comments and blank lines, with line ends of both kinds, parts without
symbols, and alternatives that are the same once empty terminals are dropped. -/
def scatteredText : String :=
  "; sums\r\n\tS = A | 'x' '' |\r\n\r\n  # no rule = |\nA -> \"=\" || '|' ''\r\nS->'''x'|\tA"

/-- The scattered text is read as two rules; a clause that uses a name without one is not read. -/
theorem ofText_scatteredText :
    (∃ g, ofText "sums" scatteredText = .ok g ∧ g.start = "S" ∧
      g.alternatives? "S" = some [[.nonterminal "A"], [.terminal "x"], []] ∧
      g.alternatives? "A" = some [[.terminal "="], [], [.terminal "|"]]) ∧
    ¬∃ g, ofText "sums" "S = A" = .ok g := by
  constructor
  · have hlines : ruleLines scatteredText = [("\tS = A | 'x' '' |", 2),
        ("A -> \"=\" || '|' ''", 5), ("S->'''x'|\tA", 6)] := by decide
    have hsums : Token.ofLine "\tS = A | 'x' '' |" = .ok [.nonterminal "S", .equals,
        .nonterminal "A", .bar, .terminal "x", .terminal "", .bar] := by decide +kernel
    have hatoms : Token.ofLine "A -> \"=\" || '|' ''" = .ok [.nonterminal "A", .equals,
        .terminal "=", .bar, .bar, .terminal "|", .terminal ""] := by decide +kernel
    have hmore : Token.ofLine "S->'''x'|\tA" = .ok [.nonterminal "S", .equals,
        .terminal "", .terminal "x", .bar, .nonterminal "A"] := by decide +kernel
    have hclauses : clauses scatteredText =
        [⟨"S", [.nonterminal "A", .bar, .terminal "x", .terminal "", .bar], 2⟩,
          ⟨"A", [.terminal "=", .bar, .bar, .terminal "|", .terminal ""], 5⟩,
          ⟨"S", [.terminal "", .terminal "x", .bar, .nonterminal "A"], 6⟩] := by
      unfold clauses
      simp [hlines, Clause.ofLine?, hsums, hatoms, hmore]
    have hdefined : definedNames scatteredText = ["S", "A", "S"] := by
      unfold definedNames
      rw [hclauses]
      rfl
    obtain ⟨hiff, hbuilt⟩ := ofText_accepts_exactly "sums" scatteredText
    rw [hlines] at hiff hbuilt
    obtain ⟨g, hg⟩ := hiff.mpr (by
      refine ⟨List.cons_ne_nil _ _, ?_, ?_⟩
      · simp only [List.forall_mem_cons, List.not_mem_nil, false_imp_iff, implies_true, and_true]
        exact ⟨⟨_, _, hsums, by decide⟩, ⟨_, _, hatoms, by decide⟩, ⟨_, _, hmore, by decide⟩⟩
      · intro line hline before right name htokens hname
        have hmem := List.mem_append_right before (List.mem_cons_of_mem Token.equals hname)
        have hnames : name = "S" ∨ name = "A" := by
          simp only [List.mem_cons, List.not_mem_nil, or_false] at hline
          rcases hline with rfl | rfl | rfl
          · rw [← Except.ok.inj (hsums.symm.trans htokens)] at hmem
            simpa using hmem
          · rw [← Except.ok.inj (hatoms.symm.trans htokens)] at hmem
            exact Or.inr (by simpa using hmem)
          · rw [← Except.ok.inj (hmore.symm.trans htokens)] at hmem
            simpa using hmem
        rcases hnames with rfl | rfl
        · exact ⟨_, List.mem_cons_self, _, hsums⟩
        · exact ⟨_, List.mem_cons_of_mem _ List.mem_cons_self, _, hatoms⟩)
    obtain ⟨⟨line, more, rest, hfirst, hstart⟩, hnames⟩ := hbuilt g hg
    obtain ⟨sums, hsumsKept, hsumsFirst⟩ := (hnames "S").1 (by simp [hdefined])
    obtain ⟨atoms, hatomsKept, hatomsFirst⟩ := (hnames "A").1 (by simp [hdefined])
    refine ⟨g, hg, ?_, ?_, ?_⟩
    · cases hfirst
      rw [hsums, Except.ok.injEq, List.cons.injEq, Token.nonterminal.injEq] at hstart
      exact hstart.1.symm
    · rw [hsumsKept, firstOccurrences_iff.mp hsumsFirst]
      unfold writtenAlternatives
      rw [hclauses]
      decide
    · rw [hatomsKept, firstOccurrences_iff.mp hatomsFirst]
      unfold writtenAlternatives
      rw [hclauses]
      decide
  · rw [(ofText_accepts_exactly "sums" "S = A").1]
    rintro ⟨-, -, hclosed⟩
    have hline : Token.ofLine "S = A" =
        .ok ([.nonterminal "S"] ++ .equals :: [.nonterminal "A"]) := by decide +kernel
    obtain ⟨other, hother, rest, htokens⟩ :=
      hclosed ("S = A", 1) (by decide) _ _ "A" hline List.mem_cons_self
    have hlines : ruleLines "S = A" = [("S = A", 1)] := by decide
    rw [hlines, List.mem_singleton] at hother
    rw [hother, hline] at htokens
    exact absurd htokens (by simp)

end ParseForest.GrammarText
