import ParseForest.Derivation.Valid

/-! # Alternatives that do not make a form longer

A step of a derivation makes a form shorter when the alternative is empty, and leaves its length
as it is when the alternative is a single symbol.  A grammar without empty alternatives, in which
no chain of single nonterminals leads back to where it began, derives each sentence in finitely
many ways.

An empty alternative of the start symbol does no harm when nothing leads back to the start symbol: it
derives the empty sentence and nothing else (`EmptyOnlyAtStart`). -/

namespace ParseForest.Grammar

/-- No alternative is empty. -/
def NoEmpty (g : Grammar) : Prop :=
  ∀ name, ¬g.Expands name []

/-- Only the start symbol has an empty alternative, and then it stands on no right-hand side. -/
def EmptyOnlyAtStart (g : Grammar) : Prop :=
  ∀ name, g.Expands name [] → name = g.start ∧ .nonterminal g.start ∉ g.rightHandSymbols

/-- The nonterminal has the child alone for an alternative. -/
def UnitStep (g : Grammar) (name child : String) : Prop :=
  g.Expands name [.nonterminal child]

/-- No nonterminal leads back to itself by alternatives that are single nonterminals. -/
def UnitAcyclic (g : Grammar) : Prop :=
  ∀ name, ¬Relation.TransGen g.UnitStep name name

end ParseForest.Grammar
