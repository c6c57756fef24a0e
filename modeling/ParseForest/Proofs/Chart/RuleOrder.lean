import ParseForest.Proofs.Chart.Agreement

/-! # Recognition does not depend on the order of the rules

The sweeps over the rules of a span add names in an order that depends on that of the rules, and a
rule may see more or less of them.  What they end with is fixed all the same, by the derivations
there are, and with it the expansions (`expansions_perm`), the trees (`trees_perm`) and, since the cells
only list the same entries in another order (`cell_perm`), the statistics (`statistics_perm`). -/

namespace ParseForest

variable {g : Grammar} {tokens : List String}

namespace Chart

variable {rules : List Rule}

theorem fits_perm (hn : g.names.Nodup) (hp : rules.Perm g.rules) :
    (build { g with rules } tokens).fits = (build g tokens).fits := by
  funext symbol part
  exact fits_agree (Grammar.same_of_perm hn hp).agreeOn_univ (Grammar.names_nodup_of_perm hn hp) hn
    (fun _ _ => trivial) part

theorem recognizes_perm (hn : g.names.Nodup) (hp : rules.Perm g.rules) (name : String) (span : Span) :
    (build { g with rules } tokens).recognizes name span = (build g tokens).recognizes name span :=
  congrFun (congrFun (fits_perm hn hp) (.nonterminal name)) span

theorem cell_perm (hn : g.names.Nodup) (hp : rules.Perm g.rules) (span : Span) :
    ((build { g with rules } tokens).table.cell span).Perm ((build g tokens).table.cell span) := by
  rw [cell_build_eq, cell_build_eq, fits_perm hn hp]
  simp only [recognizes_perm hn hp]
  exact (hp.filter _).map _

theorem recognized_perm (hn : g.names.Nodup) (hp : rules.Perm g.rules) (span : Span) :
    (build { g with rules } tokens).recognized span = (build g tokens).recognized span :=
  Text.sorted_eq_of_perm ((cell_perm hn hp span).map Recognition.name)

theorem expansions_perm (hn : g.names.Nodup) (hp : rules.Perm g.rules) (name : String) (span : Span) :
    (build { g with rules } tokens).expansions name span = (build g tokens).expansions name span :=
  expansions_agree (Grammar.same_of_perm hn hp).agreeOn_univ (Grammar.names_nodup_of_perm hn hp) hn
    trivial span

theorem trees_perm (hg : g.WellFormed) (hp : rules.Perm g.rules) :
    (build { g with rules } tokens).trees = (build g tokens).trees :=
  trees_agree (Grammar.same_of_perm hg.names_nodup hp).agreeOn_univ (hg.of_perm hp) hg rfl trivial tokens

/-- The numbers of a chart count the entries of its cells, whatever their order. -/
theorem statistics_congr {c d : Chart} (htokens : c.tokens = d.tokens)
    (hcells : ∀ span, (c.table.cell span).Perm (d.table.cell span)) :
    c.statistics = d.statistics := by
  have hspans : c.spans = d.spans := by
    unfold spans
    rw [htokens]
  unfold statistics
  simp only [hspans, htokens, Statistics.mk.injEq, true_and, List.filter_map, List.length_map,
    List.map_map, List.map_flatten, total_flatten]
  refine ⟨?_, ?_, ?_⟩
  · congr 1
    apply List.filter_congr
    intro span _
    simp only [Function.comp_apply, (hcells span).isEmpty_eq]
  · congr 1
    apply List.map_congr_left
    intro span _
    exact (hcells span).length_eq
  · congr 1
    apply List.map_congr_left
    intro span _
    exact total_perm ((hcells span).map _)

theorem statistics_perm (hn : g.names.Nodup) (hp : rules.Perm g.rules) :
    (build { g with rules } tokens).statistics = (build g tokens).statistics :=
  statistics_congr rfl (cell_perm hn hp)

/-! ### What is recognized -/

theorem recognized_pairwise_lt (hn : g.names.Nodup) (span : Span) :
    ((build g tokens).recognized span).Pairwise (· < ·) := by
  apply Text.sorted_pairwise_lt
  rw [cell_build_eq]
  unfold Cell.names
  rw [List.map_map]
  exact hn.sublist (List.filter_sublist.map Rule.name)

theorem mem_recognized_iff_exists (hn : g.names.Nodup) {span : Span} {name : String} :
    name ∈ (build g tokens).recognized span ↔
      (span.start < span.stop ∧ span.stop ≤ tokens.length) ∧
        ∃ t : Tree, t.root = .nonterminal name ∧ t.Derives g.ExpandsProperly ∧
          t.leaves = span.slice tokens := by
  rw [mem_recognized_iff, recognizes_iff_derivesOver hn, Grammar.derivesOver_iff]

/-- **Recognition is exact and does not depend on the order of the rules.**  Over any span the names
recognized increase strictly and are those of the nonterminals with a derivation, without empty
alternatives, of the tokens of the span; there are none over a span that is empty, reversed or not
inside the input.  With the rules in any other order the names recognized, the expansions, the
statistics and the trees are the same. -/
theorem recognized_exact (g : Grammar) (hg : g.WellFormed) (tokens : List String) :
    (∀ span : Span,
      ((build g tokens).recognized span).Pairwise (· < ·) ∧
      (∀ name : String, name ∈ (build g tokens).recognized span ↔
        (span.start < span.stop ∧ span.stop ≤ tokens.length) ∧
          ∃ t : Tree, t.root = .nonterminal name ∧ t.Derives g.ExpandsProperly ∧
            t.leaves = span.slice tokens) ∧
      (¬(span.start < span.stop ∧ span.stop ≤ tokens.length) →
        (build g tokens).recognized span = [])) ∧
    ∀ rules : List Rule, rules.Perm g.rules →
      (∀ span : Span,
        (build { g with rules } tokens).recognized span = (build g tokens).recognized span) ∧
      (∀ (name : String) (span : Span),
        (build { g with rules } tokens).expansions name span =
          (build g tokens).expansions name span) ∧
      (build { g with rules } tokens).statistics = (build g tokens).statistics ∧
      (build { g with rules } tokens).trees = (build g tokens).trees := by
  have hn := hg.names_nodup
  refine ⟨fun span => ⟨recognized_pairwise_lt hn span, fun _ => mem_recognized_iff_exists hn, ?_⟩, ?_⟩
  · intro hout
    refine List.eq_nil_iff_forall_not_mem.mpr fun name hm => hout ?_
    exact ((mem_recognized_iff_exists hn).mp hm).1
  · intro rules hp
    exact ⟨recognized_perm hn hp, expansions_perm hn hp, statistics_perm hn hp, trees_perm hg hp⟩

/-- With the rules of the cycle visited the other way round the same is recognized. -/
theorem recognized_loopGrammar_exact :
    loopGrammar.WellFormed ∧ loopGrammar.rules.reverse.Perm loopGrammar.rules ∧
      (∃ t : Tree, t.root = .nonterminal "A" ∧ t.Derives loopGrammar.ExpandsProperly ∧
        t.leaves = Span.slice ⟨0, 2⟩ ["a", "a"]) ∧
      (build loopGrammar ["a", "a"]).recognized ⟨2, 1⟩ = [] ∧
      (build { loopGrammar with rules := loopGrammar.rules.reverse } ["a", "a"]).statistics =
        (build loopGrammar ["a", "a"]).statistics := by
  have hg : loopGrammar.WellFormed := by decide
  have hp := List.reverse_perm loopGrammar.rules
  obtain ⟨hspans, horder⟩ := recognized_exact loopGrammar hg ["a", "a"]
  have hm : "A" ∈ (build loopGrammar ["a", "a"]).recognized ⟨0, 2⟩ :=
    mem_recognized_iff.mpr (by decide)
  obtain ⟨-, htree⟩ := ((hspans ⟨0, 2⟩).2.1 "A").mp hm
  exact ⟨hg, hp, htree, (hspans ⟨2, 1⟩).2.2 (by decide), (horder _ hp).2.2.1⟩

end Chart

end ParseForest
