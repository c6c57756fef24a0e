import ParseForest.Arithmetic.Grammar
import ParseForest.Proofs.Sentence.Agreement

/-! # Heights do not depend on the order of the rules

The order of the rules decides from what a height is first found, and so how often it is lowered and how
many sweeps there are.  The sweeps end all the same, with the least heights of derivation trees
(`heights_any_order`), and a derivation does not know about the order of the rules
(`leastHeight_perm`). -/

namespace ParseForest.Grammar

variable {g : Grammar} {rules : List Rule} {symbol : Symbol} {name : String} {height : Nat}

theorem derivationTrees_perm (hn : g.names.Nodup) (hp : rules.Perm g.rules) :
    ({ g with rules } : Grammar).derivationTrees symbol = g.derivationTrees symbol :=
  (same_of_perm hn hp).agreeOn_univ.derivationTrees_eq fun _ _ => trivial

theorem leastHeight_perm (hn : g.names.Nodup) (hp : rules.Perm g.rules) :
    ({ g with rules } : Grammar).LeastHeight symbol height ↔ g.LeastHeight symbol height := by
  unfold LeastHeight
  rw [derivationTrees_perm hn hp]

theorem lookup_heights_perm (hn : g.names.Nodup) (hp : rules.Perm g.rules) :
    ({ g with rules } : Grammar).heights.lookup name = some height ↔
      g.LeastHeight (.nonterminal name) height := by
  rw [lookup_heights_iff (names_nodup_of_perm hn hp), leastHeight_perm hn hp]

/-- **The sweeps end with the least heights, whatever the order of the rules.**  At most as many sweeps as
there are rules change something, and then one changes nothing.  A nonterminal has a height then exactly
if it has a derivation tree, where alternatives may be empty, and its height is the least height of such
a tree. -/
theorem heights_any_order (g : Grammar) (hg : g.WellFormed) (rules : List Rule)
    (hp : rules.Perm g.rules) :
    (∃ sweeps ≤ rules.length,
      Settles (Heights.sweep rules) sweeps [] ({ g with rules } : Grammar).heights) ∧
    ∀ name : String,
      ((∃ height, ({ g with rules } : Grammar).heights.lookup name = some height) ↔
        (g.derivationTrees (.nonterminal name)).Nonempty) ∧
      ∀ height, ({ g with rules } : Grammar).heights.lookup name = some height ↔
        IsLeast (Tree.height '' g.derivationTrees (.nonterminal name)) height := by
  have hn := hg.names_nodup
  refine ⟨exists_settles_heights (names_nodup_of_perm hn hp), fun name => ⟨?_, fun height => ?_⟩⟩
  · rw [nonempty_derivationTrees_iff]
    exact exists_congr fun height => lookup_heights_perm hn hp
  · exact lookup_heights_perm hn hp

/-- The height of `S` is first found over `D`, before `B` has one.  The nonterminal `U` never has. -/
def lateGrammar : Grammar :=
  ⟨"S", [⟨"E", [[], [.nonterminal "U"]]⟩, ⟨"D", [[.nonterminal "E", .nonterminal "E"]]⟩,
    ⟨"S", [[.nonterminal "D"], [.nonterminal "B", .terminal "s"]]⟩, ⟨"B", [[.terminal "b"]]⟩,
    ⟨"U", [[.nonterminal "U"], [.nonterminal "S", .nonterminal "U"]]⟩]⟩

/-- The first sweep finds a height that is too great, and none is too great in the end; with the rules the
other way round the same is found. -/
theorem heights_any_order_lateGrammar :
    lateGrammar.WellFormed ∧ lateGrammar.rules.reverse.Perm lateGrammar.rules ∧
      (Heights.sweep lateGrammar.rules []).lookup "S" = some 3 ∧
      lateGrammar.LeastHeight (.nonterminal "S") 2 ∧
      ({ lateGrammar with rules := lateGrammar.rules.reverse } : Grammar).heights.lookup "S" =
        some 2 ∧
      (∃ sweeps ≤ 5, Settles (Heights.sweep lateGrammar.rules) sweeps [] lateGrammar.heights) ∧
      lateGrammar.derivationTrees (.nonterminal "U") = ∅ := by
  have hg : lateGrammar.WellFormed := by decide
  have hp := List.reverse_perm lateGrammar.rules
  obtain ⟨hsettles, hheights⟩ := heights_any_order lateGrammar hg lateGrammar.rules (.refl _)
  obtain ⟨-, hreversed⟩ := heights_any_order lateGrammar hg lateGrammar.rules.reverse hp
  have htwo : lateGrammar.LeastHeight (.nonterminal "S") 2 :=
    ((hheights "S").2 2).mp (by decide +kernel)
  refine ⟨hg, hp, by decide +kernel, htwo, ((hreversed "S").2 2).mpr htwo, hsettles, ?_⟩
  have hnone : lateGrammar.heights.lookup "U" = none := by decide +kernel
  rw [← Set.not_nonempty_iff_eq_empty]
  intro hsome
  obtain ⟨height, hheight⟩ := (hheights "U").1.mpr hsome
  exact absurd (hheight.symm.trans hnone) (Option.some_ne_none height)

/-- A factor is one node high at the least, a term two and an expression three. -/
example : ["F", "T", "E"].map (fun name => Arithmetic.grammar.heights.lookup name) =
    [some 1, some 2, some 3] := by
  decide +kernel

end ParseForest.Grammar
