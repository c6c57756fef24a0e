import ParseForest.Chart.Statistics
import ParseForest.Proofs.Chart.Recognition

/-! # What a finished chart holds

A cell holds the rules of the nonterminals recognized over its span, each with every split of every
alternative (`cell_build_eq`).  The expansions of a nonterminal follow the order of its alternatives
and then that of the splits (`expansions_build`), and each is an alternative with a split whose
parts fit their symbols (`mem_expansions_iff`). -/

namespace ParseForest

/-- Every expansion of some alternatives over a span, by a test of what fits. -/
def expansionsBy (fits : Symbol → Span → Bool) (span : Span) (alternatives : List Alternative) :
    List Expansion :=
  alternatives.zipIdx.flatMap fun numbered =>
    (splits fits numbered.1 span).map fun boundaries => ⟨numbered.2, boundaries⟩

theorem mem_expansionsBy {fits : Symbol → Span → Bool} {span : Span}
    {alternatives : List Alternative} {expansion : Expansion} :
    expansion ∈ expansionsBy fits span alternatives ↔
      ∃ symbols, alternatives[expansion.alternative]? = some symbols ∧
        expansion.boundaries ∈ splits fits symbols span := by
  unfold expansionsBy
  rw [List.mem_flatMap]
  constructor
  · rintro ⟨⟨symbols, place⟩, hplace, hm⟩
    obtain ⟨boundaries, hb, rfl⟩ := List.mem_map.mp hm
    exact ⟨symbols, List.mem_zipIdx_iff_getElem?.mp hplace, hb⟩
  · rintro ⟨symbols, hplace, hb⟩
    exact ⟨(symbols, expansion.alternative), List.mem_zipIdx_iff_getElem?.mpr hplace,
      List.mem_map.mpr ⟨expansion.boundaries, hb, rfl⟩⟩

/-- The order of expansions: by alternative, and then by split. -/
def Expansion.Before (a b : Expansion) : Prop :=
  a.alternative < b.alternative ∨ a.alternative = b.alternative ∧ a.boundaries < b.boundaries

theorem expansionsBy_pairwise (fits : Symbol → Span → Bool) (span : Span)
    (alternatives : List Alternative) :
    (expansionsBy fits span alternatives).Pairwise Expansion.Before := by
  unfold expansionsBy
  rw [List.pairwise_flatMap]
  constructor
  · intro numbered _
    rw [List.pairwise_map]
    exact (splits_pairwise numbered.1 span).imp fun hlt => Or.inr ⟨rfl, hlt⟩
  · have hplaces : (alternatives.zipIdx.map Prod.snd).Pairwise (· < ·) := by
      rw [List.zipIdx_map_snd]
      exact List.pairwise_lt_range' 1
    refine (List.pairwise_map.mp hplaces).imp fun hlt a ha b hb => Or.inl ?_
    obtain ⟨_, _, rfl⟩ := List.mem_map.mp ha
    obtain ⟨_, _, rfl⟩ := List.mem_map.mp hb
    exact hlt

namespace Chart

variable {g : Grammar} {tokens : List String} {span : Span} {name : String}

theorem expansions_table (hs : span.Within 0 tokens.length) (alternatives : List Alternative) :
    (shorterTable g tokens span).expansions tokens span
        ((shorterTable g tokens span).recognize tokens g.rules span) alternatives =
      expansionsBy (build g tokens).fits span alternatives := by
  unfold Table.expansions expansionsBy
  apply List.flatMap_congr
  intro numbered _
  rw [splits_congr fun symbol _ part hp => fits_recognize hs hp]

theorem cell_build_eq :
    (build g tokens).table.cell span =
      (g.rules.filter fun rule => (build g tokens).recognizes rule.name span).map fun rule =>
        ⟨rule.name, expansionsBy (build g tokens).fits span rule.alternatives⟩ := by
  rw [cell_build]
  split
  · rename_i hs
    unfold Table.fill
    simp only [expansions_table hs]
    congr 1
    apply List.filter_congr
    intro rule _
    rw [Bool.eq_iff_iff, decide_eq_true_eq, recognizes_iff]
    exact ⟨fun h => ⟨hs, h⟩, fun h => h.2⟩
  · rename_i hs
    have hnone : ∀ rule ∈ g.rules, ¬(build g tokens).recognizes rule.name span = true :=
      fun rule _ hr => hs (recognizes_iff.mp hr).1
    rw [List.filter_eq_nil_iff.mpr hnone, List.map_nil]

theorem recognizes_of_mem_expansionsBy (hn : g.names.Nodup) {expansion : Expansion}
    (h : expansion ∈ expansionsBy (build g tokens).fits span (g.alternatives name)) :
    (build g tokens).recognizes name span = true := by
  obtain ⟨symbols, hplace, hb⟩ := mem_expansionsBy.mp h
  obtain ⟨hne, hsplit⟩ := mem_splits.mp hb
  apply (recognizes_iff_derivesOver hn).mpr
  exact hsplit.derivesOver ⟨hne, List.mem_of_getElem? hplace⟩ fun _ _ _ => (fits_iff hn).mp

/-- **The expansions of a nonterminal over a span**: its alternatives in order, each with all
splits in order. -/
theorem expansions_build (hn : g.names.Nodup) :
    (build g tokens).expansions name span =
      expansionsBy (build g tokens).fits span (g.alternatives name) := by
  have hn' : ((g.rules.filter fun rule =>
      (build g tokens).recognizes rule.name span).map Rule.name).Nodup :=
    hn.sublist (List.filter_sublist.map Rule.name)
  unfold expansions
  rw [cell_build_eq, List.find?_map]
  simp only [Function.comp_def]
  cases hfind : (g.rules.filter fun rule =>
      (build g tokens).recognizes rule.name span).find? fun rule => rule.name = name with
  | some rule =>
      obtain ⟨hmem, rfl⟩ := (Grammar.find?_rule_eq_some_iff hn').mp hfind
      rw [Grammar.alternatives_of_mem hn (List.mem_of_mem_filter hmem)]
      rfl
  | none =>
      -- an expansion would make the rule of the nonterminal a rule recognized over the span
      refine (List.eq_nil_iff_forall_not_mem.mpr fun expansion he => ?_).symm
      have hrec := recognizes_of_mem_expansionsBy hn he
      obtain ⟨symbols, hplace, -⟩ := mem_expansionsBy.mp he
      obtain ⟨rule, hr, rfl, -⟩ :=
        Grammar.exists_rule_of_mem_alternatives (List.mem_of_getElem? hplace)
      have hnone := List.find?_eq_none.mp hfind rule (List.mem_filter.mpr ⟨hr, hrec⟩)
      exact hnone (decide_eq_true rfl)

theorem mem_expansions_iff (hn : g.names.Nodup) {expansion : Expansion} :
    expansion ∈ (build g tokens).expansions name span ↔
      ∃ symbols, (g.alternatives name)[expansion.alternative]? = some symbols ∧ symbols ≠ [] ∧
        IsSplit (build g tokens).fits symbols span expansion.boundaries := by
  rw [expansions_build hn, mem_expansionsBy]
  simp only [mem_splits]

/-- A derivation over a span begins with an expansion: the alternative at its root in its place, and the
boundaries between its children. -/
theorem exists_expansion (hn : g.names.Nodup) {children : List Tree}
    (hd : (Tree.node (.nonterminal name) children).DerivesAt g tokens span.start)
    (hspan : (Tree.node (.nonterminal name) children).spanAt span.start = span) :
    ∃ place rest, (g.alternatives name)[place]? = some (children.map Tree.root) ∧
      Tree.boundaries span.start children = span.start :: rest ∧
      FitAll (build g tokens).fits span.stop (children.map Tree.root) span.start rest ∧
      ⟨place, span.start :: rest⟩ ∈ (build g tokens).expansions name span := by
  obtain ⟨hexp, hall⟩ := Tree.derivesAt_node.mp hd
  obtain ⟨place, hplace⟩ := List.getElem?_of_mem hexp.2
  obtain ⟨rest, hb, hfit⟩ := hall.fitAll fun child _ position => fits_of_derivesAt
  have hstop : span.start + (Tree.leavesAll children).length = span.stop :=
    Tree.spanAt_eq_iff.mp hspan
  rw [hstop] at hfit
  refine ⟨place, rest, hplace, hb, hfit, (mem_expansions_iff hn).mpr ?_⟩
  exact ⟨_, hplace, hexp.1, rest, rfl, hfit⟩

end Chart

end ParseForest
