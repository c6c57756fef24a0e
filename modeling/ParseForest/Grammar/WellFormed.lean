import ParseForest.Grammar.Basic

/-! # Well-formed grammars

What every grammar that is built satisfies, and what the chart, the generator and the reader
rely on: each nonterminal has one rule, the start symbol has one, no rule is without
alternatives or repeats one, and right-hand sides use no nonterminal without a rule. -/

namespace ParseForest.Grammar

/-- The invariant of grammars. -/
structure WellFormed (g : Grammar) : Prop where
  names_nodup : g.names.Nodup
  start_mem : g.start ∈ g.names
  alternatives_ne_nil : ∀ rule ∈ g.rules, rule.alternatives ≠ []
  alternatives_nodup : ∀ rule ∈ g.rules, rule.alternatives.Nodup
  closed : ∀ name ∈ g.rightHandSymbols.filterMap Symbol.nonterminal?, name ∈ g.names

theorem wellFormed_iff {g : Grammar} :
    g.WellFormed ↔ g.names.Nodup ∧ g.start ∈ g.names ∧
      (∀ rule ∈ g.rules, rule.alternatives ≠ []) ∧
      (∀ rule ∈ g.rules, rule.alternatives.Nodup) ∧
      ∀ name ∈ g.rightHandSymbols.filterMap Symbol.nonterminal?, name ∈ g.names :=
  ⟨fun h => ⟨h.1, h.2, h.3, h.4, h.5⟩, fun ⟨h1, h2, h3, h4, h5⟩ => ⟨h1, h2, h3, h4, h5⟩⟩

instance (g : Grammar) : Decidable g.WellFormed :=
  decidable_of_iff _ wellFormed_iff.symm

end ParseForest.Grammar
