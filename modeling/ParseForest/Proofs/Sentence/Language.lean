import ParseForest.Grammar.UnitChain
import ParseForest.Proofs.Chart.Acceptance
import ParseForest.Proofs.Sentence.Outcome

/-! # The generator and the chart know the same sentences

The generator takes empty alternatives anywhere, the chart only an empty alternative of the start
symbol, and only for the empty input.  Where no other alternative is empty and the start symbol is
not used below itself, the two notions of derivation meet: a derivation tree of the start symbol is
the start symbol alone or takes no empty alternative (`mem_derivationTrees_start_iff`).

Generated sentences are the leaves of derivation trees (`generated_iff`), accepted inputs are so too
(`accepts_iff_exists_tree`), and without any derivation tree nothing is generated and nothing accepted. -/

namespace ParseForest

variable {g : Grammar} {name : String} {tokens : List String}

/-! ### Derivations without empty alternatives -/

namespace Tree

theorem Derives.proper (hempty : g.EmptyOnlyAtStart) {t : Tree} (h : t.Derives g.Expands)
    (hroot : t.root ∈ g.rightHandSymbols) : t.Derives g.ExpandsProperly := by
  induction h with
  | leaf text => exact .leaf text
  | node name children hexpands _ ih =>
      have hne : children.map root ≠ [] := by
        intro hnil
        rw [hnil] at hexpands
        obtain ⟨rfl, hnowhere⟩ := hempty name hexpands
        exact hnowhere hroot
      refine .node name children ⟨hne, hexpands⟩ fun child hmem => ih child hmem ?_
      exact Grammar.mem_rightHandSymbols_of_expands hexpands (List.mem_map.mpr ⟨child, hmem, rfl⟩)

end Tree

namespace Grammar

/-- A derivation tree of the start symbol is the start symbol alone, or no alternative in it is
empty. -/
theorem mem_derivationTrees_start_iff (hempty : g.EmptyOnlyAtStart) {t : Tree} :
    t ∈ g.derivationTrees (.nonterminal g.start) ↔
      (t = .node (.nonterminal g.start) [] ∧ [] ∈ g.alternatives g.start) ∨
      (t.root = .nonterminal g.start ∧ t.Derives g.ExpandsProperly) := by
  constructor
  · rintro ⟨hroot, hd⟩
    obtain ⟨children, rfl⟩ := hd.eq_node hroot
    obtain ⟨hexpands, hchildren⟩ := Tree.derives_node.mp hd
    by_cases hnil : children = []
    · subst hnil
      exact Or.inl ⟨rfl, hexpands⟩
    · have hne : children.map Tree.root ≠ [] := fun h => hnil (List.map_eq_nil_iff.mp h)
      refine Or.inr ⟨rfl, .node g.start children ⟨hne, hexpands⟩ fun child hmem => ?_⟩
      exact (hchildren child hmem).proper hempty
        (mem_rightHandSymbols_of_expands hexpands (List.mem_map.mpr ⟨child, hmem, rfl⟩))
  · rintro (⟨rfl, hnil⟩ | ⟨hroot, hd⟩)
    · exact ⟨rfl, .node g.start [] hnil fun child hmem => absurd hmem List.not_mem_nil⟩
    · exact ⟨hroot, hd.of_proper⟩

end Grammar

/-! ### Accepted inputs -/

theorem Chart.accepts_iff_exists_tree (hn : g.names.Nodup) (hempty : g.EmptyOnlyAtStart)
    (tokens : List String) :
    (build g tokens).accepts = true ↔
      ∃ t ∈ g.derivationTrees (.nonterminal g.start), t.leaves = tokens := by
  rw [accepts_iff_startDerives hn]
  simp only [Grammar.mem_derivationTrees_start_iff hempty]
  constructor
  · rintro (⟨rfl, hnil⟩ | ⟨hroot, hd, hleaves⟩)
    · exact ⟨.node (.nonterminal g.start) [], Or.inl ⟨rfl, hnil⟩, rfl⟩
    · exact ⟨_, Or.inr ⟨hroot, hd⟩, hleaves⟩
  · rintro ⟨t, ⟨rfl, hnil⟩ | ⟨hroot, hd⟩, hleaves⟩
    · exact .empty hleaves.symm hnil
    · exact .tree hroot hd hleaves

theorem parse_ne_nil_iff (hn : g.names.Nodup) (tokens : List String) (direction : Direction) :
    parse g tokens direction ≠ [] ↔ (Chart.build g tokens).accepts = true := by
  rw [Chart.accepts_iff_ne_nil hn]
  unfold parse
  cases direction with
  | leftmost => exact Iff.rfl
  | rightmost => exact not_congr List.reverse_eq_nil_iff

/-! ### Generated sentences -/

namespace Grammar

/-- The leaves of each tree no higher than the depth are generated from some source. -/
theorem exists_source (hn : g.names.Nodup) {t : Tree}
    (ht : t ∈ g.derivationTrees (.nonterminal name)) {depth : Nat} (hheight : t.height ≤ depth) :
    ∃ source, (g.generateFrom name depth source).1 = .ok t.leaves := by
  obtain ⟨words, hwords⟩ := grow_reaches hn ht hheight
  obtain ⟨more, hrun⟩ := hwords [] 0
  refine ⟨⟨words ++ [], 0⟩, ?_⟩
  rw [generateFrom_eq, hrun]
  rfl

theorem generated_iff (hn : g.names.Nodup) (hname : name ∈ g.names) :
    (∃ depth source, (g.generateFrom name depth source).1 = .ok tokens) ↔
      ∃ t ∈ g.derivationTrees (.nonterminal name), t.leaves = tokens := by
  constructor
  · rintro ⟨depth, source, hgenerate⟩
    by_cases hleast : ∃ least, g.LeastHeight (.nonterminal name) least
    · obtain ⟨least, hleast⟩ := hleast
      obtain ⟨t, ht, -, hleaves⟩ := exists_generated hn hleast depth source
      exact ⟨t, ht, Except.ok.inj (hleaves.symm.trans hgenerate)⟩
    · rw [generateFrom_eq, run_grow_unproductive hn hname (not_exists.mp hleast)] at hgenerate
      exact absurd hgenerate nofun
  · rintro ⟨t, ht, rfl⟩
    exact ⟨t.height, exists_source hn ht (Nat.le_refl t.height)⟩

theorem generate_error_iff (hn : g.names.Nodup) (hname : name ∈ g.names) (depth : Nat)
    (source : Source) (error : GenerationError) :
    (g.generateFrom name depth source).1 = .error error ↔
      error = .unproductive name ∧ g.derivationTrees (.nonterminal name) = ∅ := by
  rw [generateFrom_error_iff hn]
  constructor
  · intro h
    cases h with
    | undefined hnot => exact absurd hname hnot
    | unproductive _ hnone => exact ⟨rfl, hnone⟩
  · rintro ⟨rfl, hnone⟩
    exact .unproductive hname hnone

/-- **The generator and the chart know the same sentences.**  Over all depths and sources just the
accepted inputs are generated, which are those with a parse; generation fails for want of a sentence
exactly when no input is accepted, and for no other reason. -/
theorem generated_iff_accepted (g : Grammar) (hg : g.WellFormed) (hempty : g.EmptyOnlyAtStart) :
    {tokens | ∃ depth source, (g.generate depth source).1 = .ok tokens} =
      {tokens | (Chart.build g tokens).accepts = true} ∧
    (∀ tokens direction,
      (Chart.build g tokens).accepts = true ↔ parse g tokens direction ≠ []) ∧
    ∀ depth source,
      ((∃ name, (g.generate depth source).1 = .error (.unproductive name)) ↔
        ∀ tokens, (Chart.build g tokens).accepts = false) ∧
      ∀ error, (g.generate depth source).1 = .error error → error = .unproductive g.start := by
  have haccepts := Chart.accepts_iff_exists_tree hg.names_nodup hempty
  refine ⟨?_, fun tokens direction => ?_, fun depth source => ⟨?_, fun error herror => ?_⟩⟩
  · ext tokens
    rw [Set.mem_ofPred_eq, Set.mem_ofPred_eq, haccepts]
    exact generated_iff hg.names_nodup hg.start_mem
  · exact (parse_ne_nil_iff hg.names_nodup tokens direction).symm
  · have herror := generate_error_iff hg.names_nodup hg.start_mem depth source
    simp only [← Bool.not_eq_true, haccepts]
    constructor
    · rintro ⟨name, hname⟩ tokens ⟨t, ht, -⟩
      obtain ⟨-, hnone⟩ := (herror _).mp hname
      rw [hnone] at ht
      exact absurd ht (Set.notMem_empty t)
    · intro hnone
      refine ⟨g.start, (herror _).mpr ⟨rfl, Set.eq_empty_of_forall_notMem fun t ht => ?_⟩⟩
      exact hnone t.leaves ⟨t, ht, rfl⟩
  · exact ((generate_error_iff hg.names_nodup hg.start_mem depth source error).mp herror).1

/-- Runs of `a` closed by `b`, or nothing at all.  The nonterminal `U` derives no sentence. -/
def runsGrammar : Grammar :=
  ⟨"S", [⟨"S", [[], [.nonterminal "A", .terminal "b"]]⟩,
    ⟨"A", [[.nonterminal "A", .terminal "a"], [.terminal "a"], [.nonterminal "U"]]⟩,
    ⟨"U", [[.nonterminal "U", .terminal "u"]]⟩]⟩

/-- The empty sentence and the runs are generated, and nothing else is, with no failure on the way. -/
theorem generated_runsGrammar_iff_accepted :
    runsGrammar.WellFormed ∧ runsGrammar.EmptyOnlyAtStart ∧
      [] ∈ {tokens | ∃ depth source, (runsGrammar.generate depth source).1 = .ok tokens} ∧
      ["a", "a", "b"] ∈ {tokens | ∃ depth source, (runsGrammar.generate depth source).1 = .ok tokens} ∧
      ["b"] ∉ {tokens | ∃ depth source, (runsGrammar.generate depth source).1 = .ok tokens} ∧
      ∀ depth source name, (runsGrammar.generate depth source).1 ≠ .error (.unproductive name) := by
  have hg : runsGrammar.WellFormed := by decide
  have hempty : runsGrammar.EmptyOnlyAtStart := by
    intro name hexpands
    have hname : name ∈ ["S", "A", "U"] := mem_names_of_expands hexpands
    simp only [List.mem_cons, List.not_mem_nil, or_false] at hname
    rcases hname with rfl | rfl | rfl
    · exact ⟨rfl, by decide⟩
    · exact absurd hexpands (by unfold Expands; decide)
    · exact absurd hexpands (by unfold Expands; decide)
  have h := generated_iff_accepted runsGrammar hg hempty
  have haccepts : (Chart.build runsGrammar ["a", "a", "b"]).accepts = true := by decide
  refine ⟨hg, hempty, ?_, ?_, ?_, fun depth source name herror => ?_⟩
  · rw [h.1]
    show (Chart.build runsGrammar []).accepts = true
    decide
  · rw [h.1]
    exact haccepts
  · rw [h.1]
    show ¬(Chart.build runsGrammar ["b"]).accepts = true
    decide
  · have hnone := (h.2.2 depth source).1.mp ⟨name, herror⟩ ["a", "a", "b"]
    rw [haccepts] at hnone
    exact Bool.noConfusion hnone

end Grammar

end ParseForest
