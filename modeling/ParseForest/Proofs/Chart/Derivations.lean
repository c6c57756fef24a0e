import Mathlib.Data.Set.Function
import ParseForest.Proofs.Chart.Order
import ParseForest.Proofs.Derivation.Count

/-! # Trees and derivations correspond one to one

Where no alternative is empty and no chain of single nonterminals leads back, nothing is left out of the
forest (`mem_parse_iff`), so it holds a tree for each derivation, in either direction
(`forms_bijOn_derivations`).  Each tree is listed once, so there are as many as rewriting counts
(`countLeftmost_start`). -/

namespace ParseForest.Chart

variable {g : Grammar} {tokens : List String} {direction : Direction}

/-- Without empty alternatives and unit cycles a parse holds every derivation tree. -/
theorem mem_parse_iff (hg : g.WellFormed) (hempty : g.NoEmpty) (hunit : g.UnitAcyclic) {t : Tree} :
    t ∈ parse g tokens direction ↔
      t.root = .nonterminal g.start ∧ t.Derives g.Expands ∧ t.leaves = tokens := by
  unfold parse
  rw [Direction.mem_arrange, ← hempty.expandsProperly_eq]
  by_cases hne : tokens = []
  · subst hne
    have hnone : [] ∉ g.alternatives g.start := hempty g.start
    rw [trees_nil, if_neg hnone]
    refine ⟨fun h => absurd h List.not_mem_nil, ?_⟩
    rintro ⟨-, hd, hleaves⟩
    exact absurd hleaves hd.leaves_ne_nil
  · rw [mem_trees_iff hg.names_nodup hne]
    constructor
    · rintro ⟨hroot, hd, hleaves, -⟩
      exact ⟨hroot, hd, hleaves⟩
    · rintro ⟨hroot, hd, hleaves⟩
      exact ⟨hroot, hd, hleaves, Tree.cycleFree_of_unitAcyclic hunit hd⟩

theorem parse_nodup (hg : g.WellFormed) : (parse g tokens direction).Nodup := by
  cases direction with
  | leftmost => exact trees_nodup hg tokens
  | rightmost => exact List.nodup_reverse.mpr (trees_nodup hg tokens)

theorem length_parse : (parse g tokens direction).length = (build g tokens).trees.length := by
  cases direction with
  | leftmost => rfl
  | rightmost => exact List.length_reverse

theorem forms_bijOn (hg : g.WellFormed) (hempty : g.NoEmpty) (hunit : g.UnitAcyclic) :
    Set.BijOn (Tree.forms direction) {t | t ∈ parse g tokens direction}
      {forms | g.Derivation direction tokens forms} := by
  refine ⟨fun t ht => ?_, fun s hs t ht heq => ?_, fun forms hforms => ?_⟩
  · exact Tree.derivation_iff.mpr ⟨t, (mem_parse_iff hg hempty hunit).mp ht, rfl⟩
  · obtain ⟨-, hs, -⟩ := (mem_parse_iff hg hempty hunit).mp hs
    obtain ⟨-, ht, -⟩ := (mem_parse_iff hg hempty hunit).mp ht
    exact Tree.forms_injOn direction hs ht heq
  · obtain ⟨t, ht, rfl⟩ := Tree.derivation_iff.mp hforms
    exact ⟨t, (mem_parse_iff hg hempty hunit).mpr ht, rfl⟩

theorem countLeftmost_start (hg : g.WellFormed) (hempty : g.NoEmpty) (hunit : g.UnitAcyclic) :
    g.countLeftmost hg hempty hunit tokens [.nonterminal g.start] = (build g tokens).trees.length := by
  obtain ⟨derivations, hlists, hcount⟩ :=
    Grammar.exists_derivations hg hempty hunit tokens [.nonterminal g.start]
  have hbij : Set.BijOn (Tree.forms .leftmost) {t | t ∈ parse g tokens .leftmost}
      {forms | g.Derivation .leftmost tokens forms} := forms_bijOn hg hempty hunit
  have htrees : ((build g tokens).trees.map (Tree.forms .leftmost)).Nodup :=
    (trees_nodup hg tokens).map_on fun s hs t ht => hbij.injOn hs ht
  have hderivations : (derivations.map ([.nonterminal g.start] :: ·)).Nodup :=
    hlists.nodup.map List.cons_injective
  have hperm : ((build g tokens).trees.map (Tree.forms .leftmost)).Perm
      (derivations.map ([.nonterminal g.start] :: ·)) := by
    refine (List.perm_ext_iff_of_nodup htrees hderivations).mpr fun forms => ?_
    rw [List.mem_map, List.mem_map]
    constructor
    · rintro ⟨t, ht, rfl⟩
      obtain ⟨rest, hforms, hsteps⟩ := hbij.mapsTo ht
      exact ⟨rest, (hlists.mem_iff rest).mpr hsteps, hforms.symm⟩
    · rintro ⟨rest, hrest, rfl⟩
      exact hbij.surjOn ⟨rest, rfl, (hlists.mem_iff rest).mp hrest⟩
  rw [hcount, ← List.length_map, ← hperm.length_eq, List.length_map]

/-- **Trees and derivations correspond one to one.**  In a grammar without empty alternatives and
without a cycle of unit alternatives, the sentential forms of the trees of a parse are the
derivations of the tokens in the direction of the parse, each from exactly one tree; and there are as
many trees as rewriting forms directly counts. -/
theorem forms_bijOn_derivations (g : Grammar) (hg : g.WellFormed) (hempty : g.NoEmpty)
    (hunit : g.UnitAcyclic) (tokens : List String) (direction : Direction) :
    Set.BijOn (Tree.forms direction) {t | t ∈ parse g tokens direction}
      {forms | g.Derivation direction tokens forms} ∧
    (parse g tokens direction).Nodup ∧
    g.countLeftmost hg hempty hunit tokens [.nonterminal g.start] =
      (parse g tokens direction).length := by
  refine ⟨forms_bijOn hg hempty hunit, parse_nodup hg, ?_⟩
  rw [length_parse]
  exact countLeftmost_start hg hempty hunit

/-- Sums that associate either way, with a chain of two single nonterminals below. -/
def sumGrammar : Grammar :=
  { start := "E"
    rules := [⟨"E", [[.nonterminal "E", .terminal "+", .nonterminal "E"], [.nonterminal "T"]]⟩,
      ⟨"T", [[.nonterminal "F"], [.terminal "b"]]⟩, ⟨"F", [[.terminal "a"]]⟩] }

theorem sumGrammar_noEmpty : sumGrammar.NoEmpty := by
  intro name h
  obtain ⟨rule, hrule, -, heq⟩ := Grammar.exists_rule_of_mem_alternatives h
  have hnone : ∀ rule ∈ sumGrammar.rules, [] ∉ rule.alternatives := by decide
  exact hnone rule hrule (heq ▸ h)

theorem sumGrammar_unitAcyclic : sumGrammar.UnitAcyclic := by
  have hstep : ∀ {name child}, sumGrammar.UnitStep name child →
      name = "E" ∧ child = "T" ∨ name = "T" ∧ child = "F" := by
    intro name child h
    obtain ⟨rule, hrule, rfl, heq⟩ := Grammar.exists_rule_of_mem_alternatives h
    have hmem : [.nonterminal child] ∈ rule.alternatives := heq ▸ h
    simp only [sumGrammar, List.mem_cons, List.not_mem_nil, or_false] at hrule
    rcases hrule with rfl | rfl | rfl <;> simp_all
  have hchain : ∀ {name child}, Relation.TransGen sumGrammar.UnitStep name child →
      (name = "E" ∧ child = "T" ∨ name = "T" ∧ child = "F") ∨ name = "E" ∧ child = "F" := by
    intro name child h
    induction h with
    | single h => exact Or.inl (hstep h)
    | tail _ h ih => have := hstep h; grind
  intro name h
  have := hchain h
  grind

/-- Three summands have two trees, two derivations from the right, and two are counted. -/
theorem forms_sumGrammar_bijOn :
    ∃ (hg : sumGrammar.WellFormed) (hempty : sumGrammar.NoEmpty) (hunit : sumGrammar.UnitAcyclic),
      Set.BijOn (Tree.forms .rightmost) {t | t ∈ parse sumGrammar ["a", "+", "b", "+", "a"] .rightmost}
        {forms | sumGrammar.Derivation .rightmost ["a", "+", "b", "+", "a"] forms} ∧
      sumGrammar.countLeftmost hg hempty hunit ["a", "+", "b", "+", "a"] [.nonterminal "E"] = 2 := by
  have hg : sumGrammar.WellFormed := by decide
  obtain ⟨hbij, -, hcount⟩ := forms_bijOn_derivations sumGrammar hg sumGrammar_noEmpty
    sumGrammar_unitAcyclic ["a", "+", "b", "+", "a"] .rightmost
  have hlength : (parse sumGrammar ["a", "+", "b", "+", "a"] .rightmost).length = 2 := by decide
  rw [hlength] at hcount
  exact ⟨hg, sumGrammar_noEmpty, sumGrammar_unitAcyclic, hbij, hcount⟩

end ParseForest.Chart
