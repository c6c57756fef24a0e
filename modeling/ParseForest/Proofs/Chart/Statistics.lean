import Mathlib.Data.List.Nodup
import Mathlib.Data.Set.Card
import ParseForest.Proofs.Chart.Inventory

/-! # The statistics count what the chart stores

A list without duplicates counts the set of its members (`encard_of_nodup`), and the lists of a family
count its pairs (`encard_pairs`).  The spans of a chart are the spans inside its input
(`mem_spans_iff`), so the statistics count the spans over which something is recognized, the
nonterminals recognized over each, and the expansions of each of these (`contents_exact`). -/

namespace ParseForest

/-! ### Counting by lists -/

section

variable {α β : Type} {items : List α} {f : α → List β}

theorem encard_of_nodup {s : Set α} (hn : items.Nodup) (h : ∀ a, a ∈ s ↔ a ∈ items) :
    s.encard = items.length := by
  classical
  have hs : s = (items.toFinset : Set α) := by
    ext a
    simp [h]
  rw [hs, Set.encard_coe_eq_coe_finsetCard, List.toFinset_card_of_nodup hn]

theorem nodup_pairs (hn : items.Nodup) (hf : ∀ a ∈ items, (f a).Nodup) :
    (items.flatMap fun a => (f a).map (Prod.mk a)).Nodup := by
  rw [List.nodup_flatMap]
  refine ⟨fun a ha => (hf a ha).map (Prod.mk_right_injective a), hn.imp fun hne pair hleft hright => ?_⟩
  obtain ⟨_, -, rfl⟩ := List.mem_map.mp hleft
  obtain ⟨_, -, heq⟩ := List.mem_map.mp hright
  exact hne (congrArg Prod.fst heq).symm

theorem mem_pairs {pair : α × β} :
    pair ∈ (items.flatMap fun a => (f a).map (Prod.mk a)) ↔
      pair.1 ∈ items ∧ pair.2 ∈ f pair.1 := by
  obtain ⟨a, b⟩ := pair
  simp

/-- The lists of a family count its pairs. -/
theorem encard_pairs {s : Set (α × β)} (hn : items.Nodup) (hf : ∀ a ∈ items, (f a).Nodup)
    (h : ∀ pair, pair ∈ s ↔ pair.1 ∈ items ∧ pair.2 ∈ f pair.1) :
    s.encard = total (items.map fun a => (f a).length) := by
  rw [encard_of_nodup (nodup_pairs hn hf) fun pair => (h pair).trans mem_pairs.symm,
    List.length_flatMap]
  simp only [List.length_map]
  rfl

theorem length_filter_le_total (f : α → Nat) (items : List α) :
    (items.filter fun a => 0 < f a).length ≤ total (items.map f) := by
  unfold total
  induction items with
  | nil => simp
  | cons a items ih =>
      rw [List.filter_cons, List.map_cons, List.foldr_cons]
      split
      · simp_all
        omega
      · omega

end

namespace Chart

variable {g : Grammar} {tokens : List String}

/-! ### The spans of the input -/

theorem mem_spans_iff {span : Span} :
    span ∈ (build g tokens).spans ↔ span.Within 0 tokens.length := by
  obtain ⟨start, stop⟩ := span
  have htokens : (build g tokens).tokens = tokens := rfl
  unfold spans Span.Within
  rw [htokens]
  simp only [List.mem_flatMap, List.mem_range, List.mem_map, Span.mk.injEq]
  constructor
  · rintro ⟨shorter, hshorter, first, hfirst, rfl, rfl⟩
    omega
  · rintro ⟨-, hlt, hle⟩
    exact ⟨stop - start - 1, by omega, start, by omega, rfl, by omega⟩

theorem nodup_spans (chart : Chart) : chart.spans.Nodup := by
  unfold spans
  rw [List.nodup_flatMap]
  constructor
  · intro shorter _
    exact List.nodup_range.map fun a b hab => congrArg Span.start hab
  · refine List.nodup_range.imp fun hne span hleft hright => hne ?_
    obtain ⟨_, -, rfl⟩ := List.mem_map.mp hleft
    obtain ⟨_, -, heq⟩ := List.mem_map.mp hright
    have hstart := congrArg Span.start heq
    have hstop := congrArg Span.stop heq
    simp only at hstart hstop
    omega

/-- The pairs of a span and a nonterminal recognized over it, span by span. -/
def recognitionPairs (chart : Chart) : List (Span × String) :=
  chart.spans.flatMap fun span => (chart.recognized span).map (Prod.mk span)

theorem mem_recognitionPairs_iff {pair : Span × String} :
    pair ∈ (build g tokens).recognitionPairs ↔ pair.2 ∈ (build g tokens).recognized pair.1 := by
  unfold recognitionPairs
  rw [mem_pairs, mem_spans_iff]
  exact ⟨fun h => h.2, fun h => ⟨within_of_mem_recognized h, h⟩⟩

theorem nodup_recognized (hn : g.names.Nodup) (span : Span) :
    ((build g tokens).recognized span).Nodup :=
  (recognized_pairwise_lt hn span).imp String.ne_of_lt

/-! ### The numbers -/

theorem cells_eq (chart : Chart) :
    chart.statistics.cells =
      (chart.spans.filter fun span => 0 < (chart.recognized span).length).length := by
  simp only [statistics, List.filter_map, List.length_map]
  congr 1
  refine List.filter_congr fun span _ => ?_
  rw [Function.comp_apply, length_recognized]
  cases chart.table.cell span <;> simp

theorem recognitions_eq (chart : Chart) :
    chart.statistics.recognitions =
      total (chart.spans.map fun span => (chart.recognized span).length) := by
  simp only [statistics, List.map_map, length_recognized]
  rfl

theorem length_recognitionPairs (chart : Chart) :
    chart.recognitionPairs.length = chart.statistics.recognitions := by
  rw [recognitions_eq]
  simp [recognitionPairs, List.length_flatMap, total, List.sum]

theorem expansions_eq (hn : g.names.Nodup) (tokens : List String) :
    (build g tokens).statistics.expansions = total ((build g tokens).recognitionPairs.map fun pair =>
      ((build g tokens).expansions pair.2 pair.1).length) := by
  simp only [statistics, recognitionPairs, ← List.flatMap_def, List.map_flatMap]
  refine total_perm (List.Perm.flatMap_left _ fun span _ => ?_)
  have hcell := (cell_perm_recognized hn tokens span).map fun entry => entry.2.length
  simpa [Function.comp_def] using hcell

/-! ### What they count -/

theorem encard_recognizing_spans (g : Grammar) (tokens : List String) :
    {span : Span | (build g tokens).recognized span ≠ []}.encard =
      (build g tokens).statistics.cells := by
  rw [cells_eq]
  refine encard_of_nodup ((nodup_spans _).filter _) fun span => ?_
  rw [List.mem_filter, mem_spans_iff]
  simp only [Set.mem_ofPred_eq, decide_eq_true_eq, List.length_pos_iff]
  refine ⟨fun h => ⟨?_, h⟩, fun h => h.2⟩
  obtain ⟨name, hname⟩ := List.exists_mem_of_ne_nil _ h
  exact within_of_mem_recognized hname

theorem encard_recognitions (hn : g.names.Nodup) (tokens : List String) :
    {pair : Span × String | pair.2 ∈ (build g tokens).recognized pair.1}.encard =
      (build g tokens).statistics.recognitions := by
  rw [recognitions_eq]
  refine encard_pairs (nodup_spans _) (fun span _ => nodup_recognized hn span) fun pair => ?_
  rw [mem_spans_iff]
  exact ⟨fun h => ⟨within_of_mem_recognized h, h⟩, fun h => h.2⟩

theorem encard_expansions (hn : g.names.Nodup) (tokens : List String) :
    {entry : (Span × String) × Expansion | entry.1.2 ∈ (build g tokens).recognized entry.1.1 ∧
      (build g tokens).ExpandsOver entry.1.2 entry.1.1 entry.2}.encard =
      (build g tokens).statistics.expansions := by
  have hpairs : (build g tokens).recognitionPairs.Nodup :=
    nodup_pairs (nodup_spans _) fun span _ => nodup_recognized hn span
  rw [expansions_eq hn]
  refine encard_pairs hpairs (fun pair _ => ?_) fun entry => ?_
  · exact (expansions_pairwise hn).imp Expansion.Before.ne
  · rw [mem_recognitionPairs_iff, mem_expansions_iff_expandsOver hn]
    rfl

theorem cells_le_recognitions (chart : Chart) :
    chart.statistics.cells ≤ chart.statistics.recognitions := by
  rw [cells_eq, recognitions_eq]
  exact length_filter_le_total _ _

theorem recognitions_le_expansions (hn : g.names.Nodup) (tokens : List String) :
    (build g tokens).statistics.recognitions ≤ (build g tokens).statistics.expansions := by
  have hall : ∀ pair ∈ (build g tokens).recognitionPairs,
      decide (0 < ((build g tokens).expansions pair.2 pair.1).length) = true := by
    intro pair hpair
    rw [decide_eq_true_eq, List.length_pos_iff, expansions_ne_nil_iff hn]
    exact mem_recognitionPairs_iff.mp hpair
  have hle := length_filter_le_total
    (fun pair => ((build g tokens).expansions pair.2 pair.1).length) (build g tokens).recognitionPairs
  rwa [List.filter_eq_self.mpr hall, ← expansions_eq hn, length_recognitionPairs] at hle

/-- **What a chart stores, and how much of it.**  For a nonterminal recognized over a span the expansions
are stored that there are, at least one: each is the place of an alternative with symbols and boundaries
that divide the span among them, and they increase strictly, by the place and then by the boundaries.
What growing trees from one of them looks up is in range.  A cell holds an entry for each nonterminal
recognized and no other, so it is empty where nothing is recognized.  The statistics count the spans
over which something is recognized, the nonterminals recognized over each and the expansions of each. -/
theorem contents_exact (g : Grammar) (hg : g.WellFormed) (tokens : List String) :
    (∀ (span : Span) (name : String), name ∈ (build g tokens).recognized span →
      (build g tokens).expansions name span ≠ [] ∧
      (∀ expansion, expansion ∈ (build g tokens).expansions name span ↔
        (build g tokens).ExpandsOver name span expansion) ∧
      ((build g tokens).expansions name span).Nodup ∧
      ((build g tokens).expansions name span).Pairwise Expansion.Before ∧
      ∀ expansion ∈ (build g tokens).expansions name span,
        (build g tokens).InRange name span expansion) ∧
    (∀ span : Span,
      (((build g tokens).table.cell span).map fun entry => (entry.name, entry.expansions)).Perm
        (((build g tokens).recognized span).map fun name =>
          (name, (build g tokens).expansions name span)) ∧
      ((build g tokens).table.cell span = [] ↔ (build g tokens).recognized span = [])) ∧
    (build g tokens).statistics.tokens = tokens.length ∧
    {span : Span | (build g tokens).recognized span ≠ []}.encard =
      (build g tokens).statistics.cells ∧
    {pair : Span × String | pair.2 ∈ (build g tokens).recognized pair.1}.encard =
      (build g tokens).statistics.recognitions ∧
    {entry : (Span × String) × Expansion | entry.1.2 ∈ (build g tokens).recognized entry.1.1 ∧
      (build g tokens).ExpandsOver entry.1.2 entry.1.1 entry.2}.encard =
      (build g tokens).statistics.expansions ∧
    (build g tokens).statistics.cells ≤ (build g tokens).statistics.recognitions ∧
    (build g tokens).statistics.recognitions ≤ (build g tokens).statistics.expansions := by
  have hn := hg.names_nodup
  refine ⟨fun span name hname => ?_,
    fun span => ⟨cell_perm_recognized hn tokens span, cell_eq_nil_iff⟩, rfl,
    encard_recognizing_spans g tokens, encard_recognitions hn tokens, encard_expansions hn tokens,
    cells_le_recognitions _, recognitions_le_expansions hn tokens⟩
  have hpairwise : ((build g tokens).expansions name span).Pairwise Expansion.Before :=
    expansions_pairwise hn
  exact ⟨(expansions_ne_nil_iff hn).mpr hname, fun _ => mem_expansions_iff_expandsOver hn,
    hpairwise.imp Expansion.Before.ne, hpairwise, fun _ => inRange_of_mem hn⟩

/-- Over two tokens the cycle of `S` and `A` is stored beside the split at the second token. -/
theorem contents_loopGrammar_exact :
    loopGrammar.WellFormed ∧ "S" ∈ (build loopGrammar ["a", "a"]).recognized ⟨0, 2⟩ ∧
      (build loopGrammar ["a", "a"]).ExpandsOver "S" ⟨0, 2⟩ ⟨0, [0, 1, 2]⟩ ∧
      (build loopGrammar ["a", "a"]).InRange "S" ⟨0, 2⟩ ⟨1, [0, 2]⟩ ∧
      {span : Span | (build loopGrammar ["a", "a"]).recognized span ≠ []}.encard = 3 := by
  have hg : loopGrammar.WellFormed := by decide
  have hname : "S" ∈ (build loopGrammar ["a", "a"]).recognized ⟨0, 2⟩ :=
    mem_recognized_iff.mpr (by decide)
  obtain ⟨hstored, -, -, hcells, -⟩ := contents_exact loopGrammar hg ["a", "a"]
  obtain ⟨-, hmem, -, -, hrange⟩ := hstored ⟨0, 2⟩ "S" hname
  have hnumber : (build loopGrammar ["a", "a"]).statistics.cells = 3 := by decide
  refine ⟨hg, hname, (hmem _).mp (by decide), hrange _ (by decide), ?_⟩
  rw [hcells, hnumber]
  rfl

end Chart

end ParseForest
