import ParseForest.Derivation.Valid
import ParseForest.Grammar.WellFormed

/-! # Rules and the alternatives they give

When no two rules have the same name, the alternatives of a nonterminal are those of its rule
(`alternatives?_eq_some_iff`), and the order of the rules does not matter for them
(`same_of_perm`). -/

namespace ParseForest.Grammar

variable {g : Grammar} {name : String}

theorem filter_rule_eq {rules : List Rule} (hn : (rules.map Rule.name).Nodup) {rule : Rule}
    (h : rule ∈ rules) : (rules.filter fun other => other.name = rule.name) = [rule] := by
  induction rules with
  | nil => exact absurd h List.not_mem_nil
  | cons first rest ih =>
      obtain ⟨hfirst, hrest⟩ := List.nodup_cons.mp hn
      obtain rfl | hmem := List.mem_cons.mp h
      · have hnone : (rest.filter fun other => other.name = rule.name) = [] := by
          refine List.filter_eq_nil_iff.mpr fun other hother hname => hfirst ?_
          exact List.mem_map.mpr ⟨other, hother, of_decide_eq_true hname⟩
        rw [List.filter_cons_of_pos (by rw [decide_eq_true_eq]), hnone]
      · have hne : first.name ≠ rule.name := fun hname =>
          hfirst (List.mem_map.mpr ⟨rule, hmem, hname.symm⟩)
        rw [List.filter_cons_of_neg (by rwa [decide_eq_true_eq]), ih hrest hmem]

theorem find?_rule_eq_some_iff {rules : List Rule} (hn : (rules.map Rule.name).Nodup) {rule : Rule} :
    (rules.find? fun r => r.name = name) = some rule ↔ rule ∈ rules ∧ rule.name = name := by
  constructor
  · intro h
    have hname := List.find?_some h
    exact ⟨List.mem_of_find?_eq_some h, of_decide_eq_true hname⟩
  · rintro ⟨hmem, rfl⟩
    rw [← List.head?_filter, filter_rule_eq hn hmem, List.head?_cons]

theorem alternatives?_eq_some_iff (hn : g.names.Nodup) {alternatives : List Alternative} :
    g.alternatives? name = some alternatives ↔ (⟨name, alternatives⟩ : Rule) ∈ g.rules := by
  unfold alternatives?
  rw [Option.map_eq_some_iff]
  constructor
  · rintro ⟨rule, hfind, rfl⟩
    obtain ⟨hmem, rfl⟩ := (find?_rule_eq_some_iff hn).mp hfind
    exact hmem
  · intro hmem
    exact ⟨_, (find?_rule_eq_some_iff hn).mpr ⟨hmem, rfl⟩, rfl⟩

theorem alternatives_of_mem (hn : g.names.Nodup) {rule : Rule} (h : rule ∈ g.rules) :
    g.alternatives rule.name = rule.alternatives := by
  unfold alternatives
  rw [(alternatives?_eq_some_iff hn).mpr h, Option.getD_some]

theorem exists_rule_of_mem_alternatives {alternative : Alternative}
    (h : alternative ∈ g.alternatives name) :
    ∃ rule ∈ g.rules, rule.name = name ∧ g.alternatives name = rule.alternatives := by
  unfold alternatives alternatives? at h ⊢
  cases hfind : g.rules.find? fun rule => rule.name = name with
  | none =>
      rw [hfind] at h
      exact absurd h List.not_mem_nil
  | some rule =>
      have hname := List.find?_some hfind
      exact ⟨rule, List.mem_of_find?_eq_some hfind, of_decide_eq_true hname, rfl⟩

theorem mem_names_of_expands {alternative : Alternative} (h : g.Expands name alternative) :
    name ∈ g.names := by
  obtain ⟨rule, hmem, rfl, -⟩ := exists_rule_of_mem_alternatives h
  exact List.mem_map.mpr ⟨rule, hmem, rfl⟩

theorem mem_rightHandSymbols_of_expands {alternative : Alternative} {symbol : Symbol}
    (h : g.Expands name alternative) (hs : symbol ∈ alternative) : symbol ∈ g.rightHandSymbols := by
  obtain ⟨rule, hmem, -, heq⟩ := exists_rule_of_mem_alternatives h
  unfold rightHandSymbols
  exact List.mem_flatMap.mpr ⟨rule, hmem, List.mem_flatten.mpr ⟨alternative, heq ▸ h, hs⟩⟩

theorem WellFormed.mem_names_of_expands (hg : g.WellFormed) {alternative : Alternative}
    {child : String} (h : g.Expands name alternative) (hc : .nonterminal child ∈ alternative) :
    child ∈ g.names := by
  refine hg.closed child (List.mem_filterMap.mpr ⟨.nonterminal child, ?_, rfl⟩)
  exact mem_rightHandSymbols_of_expands h hc

theorem alternatives_nodup (hg : g.WellFormed) (name : String) : (g.alternatives name).Nodup := by
  by_cases h : g.alternatives name = []
  · rw [h]
    exact List.nodup_nil
  · obtain ⟨alternative, hmem⟩ := List.exists_mem_of_ne_nil _ h
    obtain ⟨rule, hrule, -, heq⟩ := exists_rule_of_mem_alternatives hmem
    rw [heq]
    exact hg.alternatives_nodup rule hrule

/-! ### The order of the rules -/

theorem names_nodup_of_perm (hn : g.names.Nodup) {rules : List Rule} (hp : rules.Perm g.rules) :
    ({ g with rules } : Grammar).names.Nodup :=
  (hp.map Rule.name).nodup_iff.mpr hn

theorem WellFormed.of_perm (hg : g.WellFormed) {rules : List Rule} (hp : rules.Perm g.rules) :
    ({ g with rules } : Grammar).WellFormed := by
  have hnames : (rules.map Rule.name).Perm g.names := hp.map Rule.name
  refine ⟨hnames.nodup_iff.mpr hg.names_nodup, hnames.mem_iff.mpr hg.start_mem, ?_, ?_, ?_⟩
  · exact fun rule hmem => hg.alternatives_ne_nil rule (hp.mem_iff.mp hmem)
  · exact fun rule hmem => hg.alternatives_nodup rule (hp.mem_iff.mp hmem)
  · intro name hname
    obtain ⟨symbol, hsymbol, heq⟩ := List.mem_filterMap.mp hname
    obtain ⟨rule, hrule, hflat⟩ := List.mem_flatMap.mp hsymbol
    refine hnames.mem_iff.mpr (hg.closed name (List.mem_filterMap.mpr ⟨symbol, ?_, heq⟩))
    exact List.mem_flatMap.mpr ⟨rule, hp.mem_iff.mp hrule, hflat⟩

theorem same_of_perm (hn : g.names.Nodup) {rules : List Rule} (hp : rules.Perm g.rules) :
    Same { g with rules } g := by
  refine ⟨rfl, fun name => Option.ext fun alternatives => ?_⟩
  rw [alternatives?_eq_some_iff (names_nodup_of_perm hn hp), alternatives?_eq_some_iff hn]
  exact hp.mem_iff

end ParseForest.Grammar
