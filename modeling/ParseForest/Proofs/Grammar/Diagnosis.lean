import Mathlib.Data.List.Forall2
import Mathlib.Data.List.Nodup
import Mathlib.Data.List.Sort
import ParseForest.Proofs.Grammar.Invariant

/-! # What is reported of entries that make no grammar

A `Diagnosis` says of the entries, as they were given, what there is to report and in which order: first the
terminals on left-hand sides, then the start symbol, then name by name what is wrong with the alternatives
offered.  An undefined nonterminal is reported where it is met first, and only there.

There is exactly one diagnosis of entries (`diagnosis_iff`): it does not matter that duplicates are left out
of the alternatives of each name before these are looked at, nor in which order the gathered rules are
listed (`definitionProblems_perm`).  It is what is reported when no grammar can be built
(`ofRules_reports`). -/

namespace ParseForest.Grammar

variable {start : Symbol} {entries : List RuleEntry} {name : String} {report : List Problem}

/-! ### Diagnosis -/

/-- Each terminal on a left-hand side is reported, every time. -/
inductive LeftHandReport : List RuleEntry → List Problem → Prop
  | done : LeftHandReport [] []
  | terminal {text : String} {alternatives : List Alternative} {entries : List RuleEntry}
      {report : List Problem} : LeftHandReport entries report →
      LeftHandReport ((.terminal text, alternatives) :: entries) (.terminalLeftHandSide text :: report)
  | nonterminal {name : String} {alternatives : List Alternative} {entries : List RuleEntry}
      {report : List Problem} : LeftHandReport entries report →
      LeftHandReport ((.nonterminal name, alternatives) :: entries) report

/-- The start symbol is reported if it is a terminal, or is given by no entry. -/
inductive StartReport (entries : List RuleEntry) : Symbol → List Problem → Prop
  | terminal (text : String) : StartReport entries (.terminal text) [.startNotNonterminal text]
  | missing {name : String} : .nonterminal name ∉ entries.map Prod.fst →
      StartReport entries (.nonterminal name) [.missingStart name]
  | given {name : String} : .nonterminal name ∈ entries.map Prod.fst →
      StartReport entries (.nonterminal name) []

/-- The nonterminals in what is offered to a name that no entry gives, as they occur. -/
def undefinedOffered (entries : List RuleEntry) (name : String) : List String :=
  ((offered entries name).flatten.filterMap Symbol.nonterminal?).filter fun child =>
    .nonterminal child ∉ entries.map Prod.fst

/-- A name is reported if nothing is offered to it, and else everything undefined in what is. -/
inductive NameReport (entries : List RuleEntry) (name : String) : List Problem → Prop
  | noAlternatives : offered entries name = [] → NameReport entries name [.noAlternatives name]
  | undefined : offered entries name ≠ [] →
      NameReport entries name ((undefinedOffered entries name).map .undefinedNonterminal)

/-- The names given are reported in increasing order, and what was reported before is left out. -/
inductive DefinitionReport (entries : List RuleEntry) : List Problem → Prop
  | intro {names : List String} {reports : List (List Problem)} {report : List Problem} :
      names.Pairwise (· < ·) → (∀ name, name ∈ names ↔ .nonterminal name ∈ entries.map Prod.fst) →
      List.Forall₂ (NameReport entries) names reports → FirstOccurrences reports.flatten report →
      DefinitionReport entries report

/-- Everything that is wrong with a start symbol and entries, in the order of report. -/
inductive Diagnosis (start : Symbol) (entries : List RuleEntry) : List Problem → Prop
  | intro {lefts starts definitions : List Problem} : LeftHandReport entries lefts →
      StartReport entries start starts → DefinitionReport entries definitions →
      Diagnosis start entries (lefts ++ starts ++ definitions)

/-! ### Left-hand sides and the start symbol -/

theorem leftHandReport_iff : LeftHandReport entries report ↔ report = leftHandProblems entries := by
  constructor
  · intro h
    induction h with
    | done => rfl
    | terminal _ ih => exact congrArg _ ih
    | nonterminal _ ih => exact ih
  · rintro rfl
    induction entries with
    | nil => exact .done
    | cons entry entries ih =>
        obtain ⟨lhs, alternatives⟩ := entry
        cases lhs with
        | terminal text => exact .terminal ih
        | nonterminal name => exact .nonterminal ih

theorem startReport_iff :
    StartReport entries start report ↔ report = startProblems start (gather entries) := by
  unfold startProblems
  rw [names_gather]
  constructor
  · intro h
    cases h with
    | terminal text => rfl
    | missing hmissing => exact (if_neg (mt mem_entryNames.mp hmissing)).symm
    | given hgiven => exact (if_pos (mem_entryNames.mpr hgiven)).symm
  · rintro rfl
    cases start with
    | terminal text => exact .terminal text
    | nonterminal name =>
        simp only [mem_entryNames]
        split
        · rename_i hgiven
          exact .given hgiven
        · rename_i hmissing
          exact .missing hmissing

/-! ### Definitions -/

theorem undefined_eq_flatMap (isUndefined : String → Bool) (alternatives : List Alternative) :
    ((alternatives.flatten.filterMap Symbol.nonterminal?).filter isUndefined).map
        Problem.undefinedNonterminal =
      alternatives.flatMap fun alternative =>
        ((alternative.filterMap Symbol.nonterminal?).filter isUndefined).map .undefinedNonterminal := by
  rw [← List.flatMap_id, List.filterMap_flatMap, List.filter_flatMap, List.map_flatMap]
  rfl

/-- The rule gathered for a name has the problems of the name, some perhaps less often. -/
theorem NameReport.eraseDups_eq (h : NameReport entries name report) :
    report.eraseDups =
      (ruleProblems (entryNames entries) ⟨name, gatheredAlternatives entries name⟩).eraseDups := by
  cases h with
  | noAlternatives hnone =>
      unfold ruleProblems
      rw [gatheredAlternatives_eq, hnone]
      rfl
  | undefined hsome =>
      have hgiven : (fun child => decide (child ∉ entryNames entries)) =
          fun child => decide (.nonterminal child ∉ entries.map Prod.fst) := by
        funext child
        simp only [mem_entryNames]
      rw [ruleProblems_of_ne_nil (by rw [gatheredAlternatives_eq]; exact mt eraseDups_eq_nil_iff.mp hsome),
        gatheredAlternatives_eq, hgiven]
      unfold undefinedOffered
      rw [undefined_eq_flatMap, undefined_eq_flatMap, eraseDups_flatMap_eraseDups]

theorem exists_nameReport (entries : List RuleEntry) (name : String) :
    ∃ report, NameReport entries name report := by
  by_cases h : offered entries name = []
  · exact ⟨_, .noAlternatives h⟩
  · exact ⟨_, .undefined h⟩

theorem eraseDups_flatten_reports {names : List String} {reports : List (List Problem)}
    (h : List.Forall₂ (NameReport entries) names reports) :
    reports.flatten.eraseDups = (names.flatMap fun name =>
      ruleProblems (entryNames entries) ⟨name, gatheredAlternatives entries name⟩).eraseDups := by
  induction h with
  | nil => rfl
  | cons hname _ ih => exact eraseDups_append_congr hname.eraseDups_eq ih

theorem definitionReport_iff :
    DefinitionReport entries report ↔ report = definitionProblems (gather entries) := by
  have hsorted : (Text.sorted (entryNames entries)).Pairwise (· < ·) :=
    Text.sorted_pairwise_lt (nodup_eraseDups _)
  have hmem : ∀ name, name ∈ Text.sorted (entryNames entries) ↔
      .nonterminal name ∈ entries.map Prod.fst :=
    fun name => Text.mem_sorted.trans mem_entryNames
  rw [definitionProblems_gather]
  constructor
  · rintro ⟨hnames, hgiven, hreports, hfirst⟩
    rename_i names reports
    have heq : names = Text.sorted (entryNames entries) :=
      hnames.eq_of_mem_iff hsorted fun name => (hgiven name).trans (hmem name).symm
    rw [firstOccurrences_iff.mp hfirst, eraseDups_flatten_reports hreports, heq]
  · rintro rfl
    choose reportOf hreportOf using exists_nameReport entries
    have hreports : List.Forall₂ (NameReport entries) (Text.sorted (entryNames entries))
        ((Text.sorted (entryNames entries)).map reportOf) := by
      rw [List.forall₂_map_right_iff, List.forall₂_same]
      exact fun name _ => hreportOf name
    refine .intro hsorted hmem hreports (firstOccurrences_iff.mpr ?_)
    rw [eraseDups_flatten_reports hreports]

/-- **There is one diagnosis of entries, and its problems are those found.** -/
theorem diagnosis_iff {found : List Problem} :
    Diagnosis start entries found ↔ found = problems start entries := by
  unfold problems
  constructor
  · rintro ⟨hlefts, hstarts, hdefinitions⟩
    rw [leftHandReport_iff.mp hlefts, startReport_iff.mp hstarts, definitionReport_iff.mp hdefinitions]
  · rintro rfl
    exact .intro (leftHandReport_iff.mpr rfl) (startReport_iff.mpr rfl) (definitionReport_iff.mpr rfl)

/-! ### Undefined nonterminals -/

theorem undefinedNonterminal_mem_ruleProblems {defined : List String} {rule : Rule} :
    .undefinedNonterminal name ∈ ruleProblems defined rule ↔
      .nonterminal name ∈ rule.alternatives.flatten ∧ name ∉ defined := by
  unfold ruleProblems
  split
  · rename_i hnone
    rw [List.isEmpty_iff.mp hnone]
    simp
  · rw [List.mem_map]
    simp only [List.mem_filter, List.mem_filterMap, Symbol.nonterminal?_eq_some, decide_eq_true_eq,
      Problem.undefinedNonterminal.injEq, exists_eq_right]

theorem undefinedNonterminal_not_mem_leftHandProblems (entries : List RuleEntry) (name : String) :
    .undefinedNonterminal name ∉ leftHandProblems entries := by
  simp [leftHandProblems]

theorem undefinedNonterminal_not_mem_startProblems (start : Symbol) (rules : List Rule)
    (name : String) : .undefinedNonterminal name ∉ startProblems start rules := by
  unfold startProblems
  split
  · simp
  · split <;> simp

theorem undefinedNonterminal_mem_problems :
    .undefinedNonterminal name ∈ problems start entries ↔
      .nonterminal name ∉ entries.map Prod.fst ∧
      ∃ entry ∈ entries, (∃ owner, entry.1 = .nonterminal owner) ∧
        .nonterminal name ∈ entry.2.flatten := by
  unfold problems
  rw [List.mem_append, List.mem_append, or_assoc,
    or_iff_right (undefinedNonterminal_not_mem_leftHandProblems entries name),
    or_iff_right (undefinedNonterminal_not_mem_startProblems start _ name),
    definitionProblems_gather, List.mem_eraseDups, List.mem_flatMap]
  simp only [undefinedNonterminal_mem_ruleProblems, Text.mem_sorted, mem_entryNames,
    gatheredAlternatives_eq, List.mem_flatten, List.mem_eraseDups, mem_offered]
  constructor
  · rintro ⟨owner, -, ⟨alternative, ⟨entry, hentry, howner, hmem⟩, hname⟩, hnot⟩
    exact ⟨hnot, entry, hentry, ⟨owner, howner⟩, alternative, hmem, hname⟩
  · rintro ⟨hnot, entry, hentry, ⟨owner, howner⟩, alternative, hmem, hname⟩
    exact ⟨owner, List.mem_map.mpr ⟨entry, hentry, howner⟩,
      ⟨alternative, ⟨entry, hentry, howner, hmem⟩, hname⟩, hnot⟩

theorem count_undefinedNonterminal_le_one (start : Symbol) (entries : List RuleEntry) (name : String) :
    (problems start entries).count (.undefinedNonterminal name) ≤ 1 := by
  have hleft : (leftHandProblems entries).count (.undefinedNonterminal name) = 0 :=
    List.count_eq_zero.mpr (undefinedNonterminal_not_mem_leftHandProblems entries name)
  have hstart : (startProblems start (gather entries)).count (.undefinedNonterminal name) = 0 :=
    List.count_eq_zero.mpr (undefinedNonterminal_not_mem_startProblems start _ name)
  have hdefinition : (definitionProblems (gather entries)).Nodup := nodup_eraseDups _
  unfold problems
  rw [List.count_append, List.count_append, hleft, hstart, Nat.zero_add]
  exact List.nodup_iff_count_le_one.mp hdefinition _

/-! ### The order of the rules -/

theorem ruleProblems_perm {defined defined' : List String} (hp : defined'.Perm defined) :
    ruleProblems defined' = ruleProblems defined := by
  funext rule
  unfold ruleProblems
  simp only [hp.mem_iff]

theorem definitionProblems_perm {rules rules' : List Rule} (hn : (rules.map Rule.name).Nodup)
    (hp : rules'.Perm rules) : definitionProblems rules' = definitionProblems rules := by
  have hname : ∀ a ∈ rules', ∀ b ∈ rules', a.name = b.name → a = b := fun a ha b hb =>
    List.inj_on_of_nodup_map hn (hp.mem_iff.mp ha) (hp.mem_iff.mp hb)
  unfold definitionProblems
  rw [Text.mergeSort_eq_of_perm hname hp, ruleProblems_perm (hp.map Rule.name)]

theorem startProblems_perm {rules rules' : List Rule} (hp : rules'.Perm rules) :
    startProblems start rules' = startProblems start rules := by
  unfold startProblems
  simp only [(hp.map Rule.name).mem_iff]

/-! ### Reports of entries -/

/-- **Exactly what is wrong is reported.**  Entries that make no grammar are refused with their diagnosis,
and entries are refused only when there is one that is not empty.  A nonterminal without an entry is reported
once if an entry of a nonterminal uses it, and else not at all.  And the report does not depend on the order
in which the rules gathered from the entries are listed. -/
theorem ofRules_reports (start : Symbol) (entries : List RuleEntry) :
    (∀ malformed, ofRules start entries = .error malformed ↔
      malformed.problems ≠ [] ∧ Diagnosis start entries malformed.problems) ∧
    ∀ malformed, ofRules start entries = .error malformed →
      (∀ name, (.undefinedNonterminal name ∈ malformed.problems ↔
          .nonterminal name ∉ entries.map Prod.fst ∧
          ∃ entry ∈ entries, (∃ owner, entry.1 = .nonterminal owner) ∧
            .nonterminal name ∈ entry.2.flatten) ∧
        malformed.problems.count (.undefinedNonterminal name) ≤ 1) ∧
      ∀ rules, rules.Perm (gather entries) →
        malformed.problems =
          leftHandProblems entries ++ startProblems start rules ++ definitionProblems rules := by
  have hiff : ∀ malformed, ofRules start entries = .error malformed ↔
      malformed.problems ≠ [] ∧ malformed.problems = problems start entries := by
    intro malformed
    by_cases hnil : problems start entries = []
    · rw [ofRules_eq_ok_iff.mpr ⟨hnil, rfl⟩, hnil]
      exact iff_of_false nofun fun h => h.1 h.2
    · rw [ofRules_eq_error hnil]
      obtain ⟨found⟩ := malformed
      simp only [Except.error.injEq, Malformed.mk.injEq]
      exact ⟨fun h => ⟨h ▸ hnil, h.symm⟩, fun h => h.2.symm⟩
  refine ⟨fun malformed => ?_, fun malformed hmalformed => ?_⟩
  · rw [hiff, diagnosis_iff]
  · obtain ⟨-, hfound⟩ := (hiff malformed).mp hmalformed
    rw [hfound]
    refine ⟨fun name => ⟨undefinedNonterminal_mem_problems,
      count_undefinedNonterminal_le_one start entries name⟩, fun rules hp => ?_⟩
    rw [startProblems_perm hp, definitionProblems_perm nodup_names_gather hp]
    rfl

/-- Entries with a terminal given twice, nothing offered to `B`, and undefined nonterminals that are used
under several names.  What the entry of a terminal uses does not count. -/
def faultyEntries : List RuleEntry :=
  [(.terminal "t", [[.nonterminal "Q"]]), (.nonterminal "S", [[.nonterminal "A", .nonterminal "X"]]),
    (.nonterminal "B", []), (.nonterminal "A", []), (.terminal "t", []),
    (.nonterminal "A", [[.nonterminal "Y", .nonterminal "X"], [.nonterminal "Y"]])]

/-- Faulty entries are refused with everything that is wrong, sorted by what is given. -/
theorem ofRules_faultyEntries :
    ∃ malformed, ofRules (.nonterminal "Z") faultyEntries = .error malformed ∧
      malformed.problems = [.terminalLeftHandSide "t", .terminalLeftHandSide "t", .missingStart "Z",
        .undefinedNonterminal "Y", .undefinedNonterminal "X", .noAlternatives "B"] ∧
      malformed.problems.count (.undefinedNonterminal "X") ≤ 1 ∧
      malformed.problems = leftHandProblems faultyEntries ++
        startProblems (.nonterminal "Z") (gather faultyEntries).reverse ++
        definitionProblems (gather faultyEntries).reverse := by
  obtain ⟨hiff, hreport⟩ := ofRules_reports (.nonterminal "Z") faultyEntries
  have hdefinitions : DefinitionReport faultyEntries
      [.undefinedNonterminal "Y", .undefinedNonterminal "X", .noAlternatives "B"] := by
    have hnames : ∀ name, name ∈ ["A", "B", "S"] ↔
        .nonterminal name ∈ faultyEntries.map Prod.fst := by
      simp [faultyEntries, or_comm, or_left_comm]
    have hA : NameReport faultyEntries "A" [.undefinedNonterminal "Y", .undefinedNonterminal "X",
        .undefinedNonterminal "Y"] := .undefined (by decide)
    have hB : NameReport faultyEntries "B" [.noAlternatives "B"] := .noAlternatives (by decide)
    have hS : NameReport faultyEntries "S" [.undefinedNonterminal "X"] := .undefined (by decide)
    exact .intro (by decide) hnames (.cons hA (.cons hB (.cons hS .nil)))
      (firstOccurrences_iff.mpr (by decide))
  have hdiagnosis : Diagnosis (.nonterminal "Z") faultyEntries
      [.terminalLeftHandSide "t", .terminalLeftHandSide "t", .missingStart "Z",
        .undefinedNonterminal "Y", .undefinedNonterminal "X", .noAlternatives "B"] :=
    .intro (leftHandReport_iff.mpr rfl) (.missing (by decide)) hdefinitions
  have herror := (hiff ⟨_⟩).mpr ⟨List.cons_ne_nil _ _, hdiagnosis⟩
  obtain ⟨hundefined, horder⟩ := hreport _ herror
  exact ⟨_, herror, rfl, (hundefined "X").2, horder _ (List.reverse_perm _)⟩

end ParseForest.Grammar
