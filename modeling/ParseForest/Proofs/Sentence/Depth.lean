import ParseForest.Arithmetic.Grammar
import ParseForest.Proofs.Sentence.Language

/-! # Generating within a depth

The depth is a budget of levels, which falls by one with each level and is not kept below zero.  What
ends the generation is the greater of the budget and the least height: it falls from a node to each of
its children (`Sentence.lt_of_mem_candidates`).  So a tree is no higher than the depth, or than it has to
be (`generateFrom_within_height`), and no sentence within the depth is lost
(`generated_within_depth`). -/

namespace ParseForest.Grammar

/-- **Generation ends within a height.**  From a nonterminal that derives a sentence, whatever the depth
and the source, the leaves of a derivation tree are generated that is no higher than the depth and the
least height: no higher than the depth if the least tree fits into it, and else as high as the least
tree.  A bound on the levels beyond this height is never met, as any other gives the same generator. -/
theorem generateFrom_within_height (g : Grammar) (hg : g.WellFormed) (name : String)
    (hsentence : (g.derivationTrees (.nonterminal name)).Nonempty) (depth : Nat) :
    ∃ least, g.LeastHeight (.nonterminal name) least ∧
      (∀ levels, max depth least ≤ levels →
        Sentence.grow g g.heights levels depth (.nonterminal name) = g.grow name depth) ∧
      ∀ source, ∃ t ∈ g.derivationTrees (.nonterminal name),
        (g.generateFrom name depth source).1 = .ok t.leaves ∧ t.height ≤ max depth least ∧
          (least ≤ depth → t.height ≤ depth) ∧ (depth < least → t.height = least) := by
  obtain ⟨witness, hwitness⟩ := hsentence
  obtain ⟨least, -, hleast⟩ := exists_leastHeight_le hwitness
  refine ⟨least, hleast, fun levels hlevels => ?_, fun source => ?_⟩
  · rw [grow_eq, levels_eq hg.names_nodup hleast]
    exact Sentence.grow_levels hg.names_nodup hleast (Nat.le_refl _) hlevels
  · obtain ⟨t, ht, hheight, hgenerated⟩ := exists_generated hg.names_nodup hleast depth source
    have hlow : least ≤ t.height := hleast.2 ⟨t, ht, rfl⟩
    exact ⟨t, ht, hgenerated, hheight, fun _ => by omega, fun _ => by omega⟩

/-- No expression is lower than three nodes, so with two levels all that is generated is as high as that. -/
theorem generateFrom_within_height_arithmetic :
    Arithmetic.grammar.WellFormed ∧
    (Arithmetic.grammar.derivationTrees (.nonterminal "E")).Nonempty ∧
    ∀ source, ∃ t ∈ Arithmetic.grammar.derivationTrees (.nonterminal "E"),
      (Arithmetic.grammar.generateFrom "E" 2 source).1 = .ok t.leaves ∧ t.height = 3 := by
  have hg : Arithmetic.grammar.WellFormed := by decide
  have hthree : Arithmetic.grammar.LeastHeight (.nonterminal "E") 3 :=
    (lookup_heights_iff hg.names_nodup).mp (by decide +kernel)
  have hsome := hthree.nonempty.of_image
  obtain ⟨least, hleast, -, hgenerated⟩ :=
    generateFrom_within_height Arithmetic.grammar hg "E" hsome 2
  obtain rfl := hleast.unique hthree
  refine ⟨hg, hsome, fun source => ?_⟩
  obtain ⟨t, ht, hleaves, -, -, hheight⟩ := hgenerated source
  exact ⟨t, ht, hleaves, hheight (by decide)⟩

/-- **Generation reaches the sentences within its depth.**  If the depth is no less than the least height
of the nonterminal, the sentences generated over all sources are the leaves of the derivation trees that
are no higher than the depth, and no source leads to a failure. -/
theorem generated_within_depth (g : Grammar) (hg : g.WellFormed) (name : String) (depth least : Nat)
    (hleast : g.LeastHeight (.nonterminal name) least) (hdepth : least ≤ depth) :
    {tokens | ∃ source, (g.generateFrom name depth source).1 = .ok tokens} =
      Tree.leaves '' {t | t ∈ g.derivationTrees (.nonterminal name) ∧ t.height ≤ depth} ∧
    ∀ source error, (g.generateFrom name depth source).1 ≠ .error error := by
  have hgenerated := exists_generated hg.names_nodup hleast depth
  refine ⟨Set.Subset.antisymm ?_ ?_, fun source error herror => ?_⟩
  · rintro tokens ⟨source, htokens⟩
    obtain ⟨t, ht, hheight, hleaves⟩ := hgenerated source
    rw [max_eq_left hdepth] at hheight
    exact ⟨t, ⟨ht, hheight⟩, Except.ok.inj (hleaves.symm.trans htokens)⟩
  · rintro _ ⟨t, ⟨ht, hheight⟩, rfl⟩
    exact exists_source hg.names_nodup ht hheight
  · obtain ⟨t, -, -, hleaves⟩ := hgenerated source
    rw [hleaves] at herror
    exact nomatch herror

/-- A run of two is generated within two levels, and not within the one level that a run of one takes. -/
theorem generated_within_depth_runsGrammar :
    runsGrammar.WellFormed ∧ runsGrammar.LeastHeight (.nonterminal "A") 1 ∧ 1 ≤ 2 ∧
    ["a", "a"] ∈ {tokens | ∃ source, (runsGrammar.generateFrom "A" 2 source).1 = .ok tokens} ∧
    ["a", "a"] ∉ {tokens | ∃ source, (runsGrammar.generateFrom "A" 1 source).1 = .ok tokens} := by
  have hg : runsGrammar.WellFormed := by decide
  have hone : runsGrammar.LeastHeight (.nonterminal "A") 1 :=
    (lookup_heights_iff hg.names_nodup).mp (by decide)
  have htwo := (generated_within_depth runsGrammar hg "A" 2 1 hone (by decide)).1
  have hlow := (generated_within_depth runsGrammar hg "A" 1 1 hone (by decide)).1
  refine ⟨hg, hone, by decide, ?_, ?_⟩
  · have hsingle : Tree.Derives runsGrammar.Expands (.node (.nonterminal "A") [.leaf "a"]) := by
      refine .node "A" _ (by unfold Expands; decide) fun child hchild => ?_
      rw [List.mem_singleton.mp hchild]
      exact .leaf "a"
    rw [htwo]
    refine ⟨.node (.nonterminal "A") [.node (.nonterminal "A") [.leaf "a"], .leaf "a"],
      ⟨⟨rfl, .node "A" _ (by unfold Expands; decide) ?_⟩, by decide⟩, rfl⟩
    exact List.forall_mem_cons.mpr ⟨hsingle, List.forall_mem_singleton.mpr (.leaf "a")⟩
  · rw [hlow]
    rintro ⟨t, ⟨ht, hheight⟩, hleaves⟩
    obtain ⟨_, halternative, children, ⟨rfl, hd⟩, rfl⟩ := mem_derivationTrees_nonterminal.mp ht
    -- with one level there are leaves alone below the node, and one alternative is without nonterminals
    have hterminal : ∀ symbol ∈ children.map Tree.root, symbol.isTerminal = true := by
      refine List.forall_mem_map.mpr fun child hchild => ?_
      cases child with
      | leaf text => rfl
      | node label below =>
          rw [Tree.height] at hheight
          have hzero := Tree.heightAll_le_iff.mp (show Tree.heightAll children ≤ 0 by omega) _ hchild
          rw [Tree.height] at hzero
          omega
    have hrun : ∀ alternative ∈ runsGrammar.alternatives "A",
        (∀ symbol ∈ alternative, symbol.isTerminal = true) → alternative = [.terminal "a"] := by
      decide
    obtain ⟨child, rfl, hroot⟩ := List.map_eq_singleton_iff.mp (hrun _ halternative hterminal)
    obtain rfl := (hd child List.mem_cons_self).eq_leaf hroot
    exact absurd hleaves (by decide)

end ParseForest.Grammar
