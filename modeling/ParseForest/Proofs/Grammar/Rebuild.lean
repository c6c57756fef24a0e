import ParseForest.Proofs.Grammar.Invariant

/-! # A grammar is built from its own rules

The rules of a grammar have different names and repeat no alternative, so gathering them as entries
gives the same rules in the same order (`gather_entries`), and a well-formed grammar has no
problems to report (`ofRules_entries`). -/

namespace ParseForest

/-- A rule as an entry. -/
def Rule.entry (rule : Rule) : RuleEntry :=
  (.nonterminal rule.name, rule.alternatives)

namespace Grammar

variable {rules : List Rule}

theorem entryNames_entries (hn : (rules.map Rule.name).Nodup) :
    entryNames (rules.map Rule.entry) = rules.map Rule.name := by
  have hnames : (rules.map Rule.entry).filterMap (fun entry => entry.1.nonterminal?) =
      rules.map Rule.name := by
    rw [List.filterMap_map]
    exact congrFun List.filterMap_eq_map rules
  unfold entryNames
  rw [hnames, eraseDups_eq_self hn]

theorem offered_entries (hn : (rules.map Rule.name).Nodup) {rule : Rule} (h : rule ∈ rules) :
    offered (rules.map Rule.entry) rule.name = rule.alternatives := by
  have hentries : ((rules.map Rule.entry).filter fun entry => entry.1 = .nonterminal rule.name) =
      (rules.filter fun other => other.name = rule.name).map Rule.entry := by
    rw [List.filter_map]
    congr 2
    funext other
    simp [Rule.entry]
  unfold offered
  rw [hentries, filter_rule_eq hn h, List.map_singleton, List.flatMap_singleton]
  rfl

theorem gather_entries (hn : (rules.map Rule.name).Nodup)
    (hnodup : ∀ rule ∈ rules, rule.alternatives.Nodup) :
    gather (rules.map Rule.entry) = rules := by
  unfold gather
  rw [entryNames_entries hn, List.map_map]
  have hrule : ∀ rule ∈ rules, ((fun name => (⟨name, gatheredAlternatives (rules.map Rule.entry) name⟩ :
      Rule)) ∘ Rule.name) rule = rule := by
    intro rule hmem
    rw [Function.comp_apply, gatheredAlternatives_eq, offered_entries hn hmem,
      eraseDups_eq_self (hnodup rule hmem)]
  exact (List.map_congr_left hrule).trans (List.map_id rules)

/-- **A well-formed grammar is built from its own rules.** -/
theorem ofRules_entries {g : Grammar} (hg : g.WellFormed) :
    ofRules (.nonterminal g.start) (g.rules.map Rule.entry) = .ok g := by
  rw [ofRules_eq_ok_iff, problems_eq_nil_iff]
  have hlhs : ∀ symbol, symbol ∈ (g.rules.map Rule.entry).map Prod.fst ↔
      ∃ name ∈ g.names, symbol = .nonterminal name := by
    intro symbol
    rw [List.map_map, List.mem_map]
    unfold names
    constructor
    · rintro ⟨rule, hmem, rfl⟩
      exact ⟨rule.name, List.mem_map.mpr ⟨rule, hmem, rfl⟩, rfl⟩
    · rintro ⟨name, hname, rfl⟩
      obtain ⟨rule, hmem, rfl⟩ := List.mem_map.mp hname
      exact ⟨rule, hmem, rfl⟩
  refine ⟨⟨⟨g.start, rfl, (hlhs _).mpr ⟨g.start, hg.start_mem, rfl⟩⟩, ?_, ?_, ?_⟩, ?_⟩
  · intro text hmem
    obtain ⟨name, -, heq⟩ := (hlhs _).mp hmem
    exact absurd heq Symbol.noConfusion
  · intro name hmem
    obtain ⟨_, hname, heq⟩ := (hlhs _).mp hmem
    obtain rfl := Symbol.nonterminal.inj heq
    obtain ⟨rule, hrule, rfl⟩ := List.mem_map.mp hname
    rw [offered_entries hg.names_nodup hrule]
    exact hg.alternatives_ne_nil rule hrule
  · intro entry hentry alternative halternative name hname
    obtain ⟨rule, hrule, rfl⟩ := List.mem_map.mp hentry
    refine (hlhs _).mpr ⟨name, ?_, rfl⟩
    have hexpands : g.Expands rule.name alternative := by
      unfold Expands
      rw [alternatives_of_mem hg.names_nodup hrule]
      exact halternative
    exact hg.mem_names_of_expands hexpands hname
  · rw [gather_entries hg.names_nodup hg.alternatives_nodup]
    rfl

end Grammar

end ParseForest
