import ParseForest.Derivation.Valid

/-! # Reachable nonterminals

Those that expanding the start symbol can lead to; no other rule matters to a derivation. -/

namespace ParseForest.Grammar

/-- The nonterminal is the start symbol, or stands in an alternative of a reachable one. -/
inductive Reachable (g : Grammar) : String → Prop
  | start : Reachable g g.start
  | step {name child : String} {alternative : Alternative} :
      Reachable g name → g.Expands name alternative → .nonterminal child ∈ alternative →
      Reachable g child

end ParseForest.Grammar
