import ParseForest.Proofs.Grammar.Invariant
import ParseForest.Proofs.GrammarText.Clause

/-! # What is wrong with the clauses of a text

The clauses of a text are gathered into rules.  A clause has at least one alternative, its names are
the names behind its equals sign, and every left-hand side is a name.  So the one thing that can be
wrong with clauses is that a name is used without having one: the problems found are the undefined
names of the text, each once, in the order in which the sorted rules meet them (`problems_clauses`).
A name is undefined when it stands in a right-hand side and has no clause (`mem_undefinedNames_iff`). -/

namespace ParseForest

namespace GrammarText

variable {text name : String} {clause : Clause}

/-! ### What clauses offer -/

theorem alternatives_ne_nil (clause : Clause) : clause.alternatives ≠ [] := by
  unfold Clause.alternatives
  rw [ne_eq, List.map_eq_nil_iff]
  exact List.splitOn_ne_nil _ _

theorem flatten_alternatives (clause : Clause) :
    clause.alternatives.flatten = clause.right.filterMap Token.symbol? := by
  unfold Clause.alternatives
  rw [← List.filterMap_flatten, flatten_splitOn, List.filterMap_filter]
  congr 1
  funext token
  cases token <;> rfl

theorem nonterminal_mem_flatten :
    .nonterminal name ∈ clause.alternatives.flatten ↔ .nonterminal name ∈ clause.right := by
  rw [flatten_alternatives, List.mem_filterMap]
  constructor
  · rintro ⟨token, htoken, hsymbol⟩
    cases token with
    | nonterminal other =>
        rw [Token.symbol?, Option.some.injEq, Symbol.nonterminal.injEq] at hsymbol
        exact hsymbol ▸ htoken
    | terminal other =>
        rw [Token.symbol?] at hsymbol
        split at hsymbol <;> simp at hsymbol
    | equals | bar => simp [Token.symbol?] at hsymbol
  · exact fun h => ⟨_, h, rfl⟩

/-- What the clauses of a text give to build a grammar from. -/
def clauseEntries (text : String) : List RuleEntry :=
  (clauses text).map fun clause => (.nonterminal clause.name, clause.alternatives)

theorem nonterminal_mem_clauseEntries :
    .nonterminal name ∈ (clauseEntries text).map Prod.fst ↔ name ∈ definedNames text := by
  unfold clauseEntries definedNames
  simp

theorem terminal_not_mem_clauseEntries (other : String) :
    .terminal other ∉ (clauseEntries text).map Prod.fst := by
  unfold clauseEntries
  simp

theorem offered_clauseEntries (text name : String) :
    Grammar.offered (clauseEntries text) name = writtenAlternatives text name := by
  unfold Grammar.offered clauseEntries writtenAlternatives
  rw [List.filter_map, List.flatMap_map]
  congr 2
  funext clause
  simp

theorem mem_writtenAlternatives {alternative : Alternative} :
    alternative ∈ writtenAlternatives text name ↔
      ∃ clause ∈ clauses text, clause.name = name ∧ alternative ∈ clause.alternatives := by
  unfold writtenAlternatives
  simp only [List.mem_flatMap, List.mem_filter, decide_eq_true_eq, and_assoc]

theorem writtenAlternatives_ne_nil (h : name ∈ definedNames text) :
    writtenAlternatives text name ≠ [] := by
  obtain ⟨clause, hclause, rfl⟩ := List.mem_map.mp h
  obtain ⟨alternative, halternative⟩ := List.exists_mem_of_ne_nil _ (alternatives_ne_nil clause)
  exact List.ne_nil_of_mem (mem_writtenAlternatives.mpr ⟨clause, hclause, rfl, halternative⟩)

/-! ### Undefined names -/

/-- The name of the first clause; without clauses it is empty. -/
def firstName (text : String) : String :=
  ((clauses text).head?.map Clause.name).getD ""

theorem firstName_mem (h : clauses text ≠ []) : firstName text ∈ definedNames text := by
  obtain ⟨first, rest, hfirst⟩ := List.exists_cons_of_ne_nil h
  unfold firstName definedNames
  rw [hfirst]
  exact List.mem_cons_self

theorem entryNames_clauseEntries (text : String) :
    Grammar.entryNames (clauseEntries text) = (definedNames text).eraseDups := by
  unfold Grammar.entryNames clauseEntries definedNames
  rw [List.filterMap_map]
  congr 1
  exact congrFun List.filterMap_eq_map' (clauses text)

theorem gatheredAlternatives_clauseEntries (text name : String) :
    Grammar.gatheredAlternatives (clauseEntries text) name =
      (writtenAlternatives text name).eraseDups := by
  rw [Grammar.gatheredAlternatives_eq, offered_clauseEntries]

theorem definitionProblems_clauseEntries (text : String) :
    Grammar.definitionProblems (Grammar.gather (clauseEntries text)) =
      (undefinedNames text).eraseDups.map .undefinedNonterminal := by
  rw [Grammar.definitionProblems_gather, entryNames_clauseEntries,
    ← Grammar.eraseDups_map fun _ _ => Problem.undefinedNonterminal.inj]
  unfold undefinedNames usedNames
  rw [List.filter_flatMap, List.map_flatMap]
  refine congrArg List.eraseDups (List.flatMap_congr fun name hname => ?_)
  have hdefined : name ∈ definedNames text := List.mem_eraseDups.mp (Text.mem_sorted.mp hname)
  rw [gatheredAlternatives_clauseEntries, Grammar.ruleProblems_of_ne_nil]
  · simp only [List.mem_eraseDups]
  · exact mt Grammar.eraseDups_eq_nil_iff.mp (writtenAlternatives_ne_nil hdefined)

/-- **The problems of the clauses are the names without a clause.** -/
theorem problems_clauses (h : clauses text ≠ []) :
    Grammar.problems (.nonterminal (firstName text)) (clauseEntries text) =
      (undefinedNames text).eraseDups.map .undefinedNonterminal := by
  have hleft : Grammar.leftHandProblems (clauseEntries text) = [] :=
    Grammar.leftHandProblems_eq_nil_iff.mpr terminal_not_mem_clauseEntries
  have hstart : Grammar.startProblems (.nonterminal (firstName text))
      (Grammar.gather (clauseEntries text)) = [] := by
    refine Grammar.startProblems_eq_nil_iff.mpr ⟨_, rfl, ?_⟩
    rw [Grammar.names_gather, entryNames_clauseEntries, List.mem_eraseDups]
    exact firstName_mem h
  unfold Grammar.problems
  rw [hleft, hstart, definitionProblems_clauseEntries, List.nil_append, List.nil_append]

/-- The names used are those in right-hand sides, since each clause is visited at its own name. -/
theorem mem_usedNames_iff :
    name ∈ usedNames text ↔ ∃ clause ∈ clauses text, .nonterminal name ∈ clause.right := by
  unfold usedNames
  simp only [List.mem_flatMap, List.mem_filterMap, Symbol.nonterminal?_eq_some, exists_eq_right,
    List.mem_flatten, List.mem_eraseDups, Text.mem_sorted]
  constructor
  · rintro ⟨owner, -, alternative, halternative, hname⟩
    obtain ⟨clause, hclause, -, hmem⟩ := mem_writtenAlternatives.mp halternative
    exact ⟨clause, hclause, nonterminal_mem_flatten.mp (List.mem_flatten_of_mem hmem hname)⟩
  · rintro ⟨clause, hclause, hright⟩
    obtain ⟨alternative, halternative, hname⟩ :=
      List.mem_flatten.mp (nonterminal_mem_flatten.mpr hright)
    exact ⟨clause.name, List.mem_map.mpr ⟨clause, hclause, rfl⟩, alternative,
      mem_writtenAlternatives.mpr ⟨clause, hclause, rfl, halternative⟩, hname⟩

theorem mem_undefinedNames_iff :
    name ∈ undefinedNames text ↔
      (∃ clause ∈ clauses text, .nonterminal name ∈ clause.right) ∧ name ∉ definedNames text := by
  unfold undefinedNames
  rw [List.mem_filter, mem_usedNames_iff, decide_eq_true_eq]

/-- Without clauses the empty name of the start symbol has no rule, and nothing else is wrong. -/
theorem problems_of_no_clauses (h : clauses text = []) :
    Grammar.problems (.nonterminal (firstName text)) (clauseEntries text) = [.missingStart ""] := by
  unfold firstName clauseEntries
  rw [h]
  exact Grammar.problems_nil ""

theorem problems_clauses_eq_nil_iff :
    Grammar.problems (.nonterminal (firstName text)) (clauseEntries text) = [] ↔
      clauses text ≠ [] ∧
        ∀ clause ∈ clauses text, ∀ name, .nonterminal name ∈ clause.right →
          name ∈ definedNames text := by
  by_cases h : clauses text = []
  · rw [problems_of_no_clauses h]
    exact ⟨fun hnil => absurd hnil (List.cons_ne_nil _ _), fun hp => absurd h hp.1⟩
  · rw [problems_clauses h, List.map_eq_nil_iff, Grammar.eraseDups_eq_nil_iff,
      List.eq_nil_iff_forall_not_mem, and_iff_right h]
    constructor
    · intro hnone clause hclause name hname
      by_contra hnot
      exact hnone name (mem_undefinedNames_iff.mpr ⟨⟨clause, hclause, hname⟩, hnot⟩)
    · intro hclosed name hname
      obtain ⟨⟨clause, hclause, hright⟩, hnot⟩ := mem_undefinedNames_iff.mp hname
      exact hnot (hclosed clause hclause name hright)

end GrammarText

end ParseForest
