import ParseForest.Grammar.Build
import ParseForest.Grammar.WellFormed
import ParseForest.Proofs.Grammar.Duplicates

/-! # Building gives well-formed grammars

Whatever the entries repeat or interleave, the rules gathered from them have different names and
repeat no alternative, and where no problem is reported the rest of the invariant holds
(`wellFormed_of_ofRules`). -/

namespace ParseForest.Grammar

/-! ### Gathered rules -/

variable {start : Symbol} {entries : List RuleEntry}

theorem names_gather : (gather entries).map Rule.name = entryNames entries := by
  unfold gather
  rw [List.map_map]
  exact List.map_id _

theorem nodup_names_gather : ((gather entries).map Rule.name).Nodup := by
  rw [names_gather]
  exact nodup_eraseDups _

theorem nodup_alternatives_of_mem_gather {rule : Rule} (h : rule ∈ gather entries) :
    rule.alternatives.Nodup := by
  obtain ⟨name, -, rfl⟩ := List.mem_map.mp h
  unfold gatheredAlternatives
  exact nodup_eraseDups _

theorem definitionProblems_gather (entries : List RuleEntry) :
    definitionProblems (gather entries) = ((Text.sorted (entryNames entries)).flatMap fun name =>
      ruleProblems (entryNames entries) ⟨name, gatheredAlternatives entries name⟩).eraseDups := by
  have hsorted : ((gather entries).mergeSort fun a b => a.name ≤ b.name) =
      (Text.sorted (entryNames entries)).map fun name =>
        ⟨name, gatheredAlternatives entries name⟩ := by
    unfold gather Text.sorted
    rw [List.map_mergeSort]
    exact fun _ _ _ _ => rfl
  unfold definitionProblems
  rw [hsorted, names_gather, List.flatMap_map]

/-! ### Rules without problems -/

theorem ruleProblems_of_ne_nil {defined : List String} {rule : Rule} (h : rule.alternatives ≠ []) :
    ruleProblems defined rule =
      ((rule.alternatives.flatten.filterMap Symbol.nonterminal?).filter
        fun name => name ∉ defined).map .undefinedNonterminal := by
  unfold ruleProblems
  rw [if_neg (mt List.isEmpty_iff.mp h)]

theorem ruleProblems_eq_nil_iff {defined : List String} {rule : Rule} :
    ruleProblems defined rule = [] ↔
      rule.alternatives ≠ [] ∧
        ∀ name ∈ rule.alternatives.flatten.filterMap Symbol.nonterminal?, name ∈ defined := by
  unfold ruleProblems
  split
  · rename_i h
    rw [List.isEmpty_iff] at h
    exact ⟨fun hp => absurd hp (List.cons_ne_nil _ _), fun hp => absurd h hp.1⟩
  · rename_i h
    rw [List.isEmpty_iff] at h
    rw [List.map_eq_nil_iff, List.filter_eq_nil_iff]
    simp only [decide_eq_true_eq, Decidable.not_not]
    exact ⟨fun hp => ⟨h, hp⟩, fun hp => hp.2⟩

theorem definitionProblems_eq_nil_iff {rules : List Rule} :
    definitionProblems rules = [] ↔
      ∀ rule ∈ rules, ruleProblems (rules.map Rule.name) rule = [] := by
  unfold definitionProblems
  rw [eraseDups_eq_nil_iff, List.flatMap_eq_nil_iff]
  simp only [List.mem_mergeSort]

theorem startProblems_eq_nil_iff {rules : List Rule} :
    startProblems start rules = [] ↔
      ∃ name, start = .nonterminal name ∧ name ∈ rules.map Rule.name := by
  unfold startProblems
  cases start with
  | terminal text =>
      refine ⟨fun h => absurd h (List.cons_ne_nil _ _), ?_⟩
      rintro ⟨name, h, -⟩
      exact absurd h Symbol.noConfusion
  | nonterminal name =>
      simp only [Symbol.nonterminal.injEq]
      split
      · rename_i h
        exact ⟨fun _ => ⟨name, rfl, h⟩, fun _ => rfl⟩
      · rename_i h
        refine ⟨fun hp => absurd hp (List.cons_ne_nil _ _), ?_⟩
        rintro ⟨_, rfl, hmem⟩
        exact absurd hmem h

theorem problems_nil (name : String) : problems (.nonterminal name) [] = [.missingStart name] := by
  have hnone : definitionProblems (gather []) = [] :=
    definitionProblems_eq_nil_iff.mpr (List.forall_mem_nil _)
  unfold problems
  rw [hnone]
  rfl

theorem ofRules_eq_ok_iff {g : Grammar} :
    ofRules start entries = .ok g ↔
      problems start entries = [] ∧ g = ⟨start.text, gather entries⟩ := by
  unfold ofRules
  split
  · rename_i h
    rw [Except.ok.injEq]
    exact ⟨fun he => ⟨h, he.symm⟩, fun he => he.2.symm⟩
  · rename_i problem more h
    refine ⟨fun he => (nomatch he), ?_⟩
    rintro ⟨hnil, -⟩
    rw [h] at hnil
    exact absurd hnil (List.cons_ne_nil _ _)

theorem ofRules_eq_error (h : problems start entries ≠ []) :
    ofRules start entries = .error ⟨problems start entries⟩ := by
  unfold ofRules
  split
  · rename_i hnil
    exact absurd hnil h
  · rename_i problem more hproblems
    rw [hproblems]

/-- **Every grammar that is built is well-formed.** -/
theorem wellFormed_of_ofRules {g : Grammar} (h : ofRules start entries = .ok g) : g.WellFormed := by
  obtain ⟨hp, rfl⟩ := ofRules_eq_ok_iff.mp h
  unfold problems at hp
  rw [List.append_eq_nil_iff, List.append_eq_nil_iff, startProblems_eq_nil_iff,
    definitionProblems_eq_nil_iff] at hp
  obtain ⟨⟨-, name, rfl, hstart⟩, hrules⟩ := hp
  refine ⟨nodup_names_gather, hstart, ?_, ?_, ?_⟩
  · exact fun rule hr => (ruleProblems_eq_nil_iff.mp (hrules rule hr)).1
  · exact fun rule hr => nodup_alternatives_of_mem_gather hr
  · intro child hchild
    obtain ⟨symbol, hsymbol, hname⟩ := List.mem_filterMap.mp hchild
    obtain ⟨rule, hr, hflat⟩ := List.mem_flatMap.mp hsymbol
    exact (ruleProblems_eq_nil_iff.mp (hrules rule hr)).2 child
      (List.mem_filterMap.mpr ⟨symbol, hflat, hname⟩)

/-! ### Another start symbol -/

variable {g : Grammar}

theorem WellFormed.withStart (hg : g.WellFormed) {name : String} (h : name ∈ g.names) :
    ({ g with start := name } : Grammar).WellFormed :=
  ⟨hg.names_nodup, h, hg.alternatives_ne_nil, hg.alternatives_nodup, hg.closed⟩

theorem withStart_eq_ok {name : String} (h : name ∈ g.names) :
    g.withStart name = .ok { g with start := name } := by
  unfold Grammar.withStart
  rw [if_pos (defines_iff.mpr h)]

theorem withStart_eq_error {name : String} (h : name ∉ g.names) :
    g.withStart name = .error ⟨[.missingStart name]⟩ := by
  unfold Grammar.withStart
  rw [if_neg (mt defines_iff.mp h)]

theorem withStart_eq_ok_iff {name : String} {restarted : Grammar} :
    g.withStart name = .ok restarted ↔ name ∈ g.names ∧ restarted = { g with start := name } := by
  constructor
  · intro h
    unfold Grammar.withStart at h
    split at h
    · rename_i hdefines
      exact ⟨defines_iff.mp hdefines, (Except.ok.inj h).symm⟩
    · exact nomatch h
  · rintro ⟨hname, rfl⟩
    exact withStart_eq_ok hname

end ParseForest.Grammar
