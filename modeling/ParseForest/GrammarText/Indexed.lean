import ParseForest.GrammarText.RuleLine

/-! # Rule lines by the places of their tokens

A rule line can be read by looking up its tokens: the name in the first place, the equals sign in the
second, and as right-hand side all that stands from the third place on.  To take this part is possible
only if there is such a place, or the end of the line, so this way of reading may have no result. -/

namespace ParseForest

/-- The items from a place on, unless the place is beyond the end. -/
def sliceFrom? {α : Type} (place : Nat) (items : List α) : Option (List α) :=
  if place ≤ items.length then some (items.drop place) else none

namespace RuleLine

/-- The name and the alternatives that the tokens of a line spell, by the places of the tokens.  There is
no result where a slice begins beyond the end. -/
def ofPlaces? (location : Location) (tokens : List Token) : Option (Except Fault RuleLine) :=
  match tokens.head? with
  | none => some (.error .unexpectedBlankLine)
  | some (.nonterminal name) =>
    if tokens[1]? = some .equals then
      (sliceFrom? 2 tokens).map fun right =>
        (fun alternatives => ⟨name, alternatives, location⟩) <$> alternativesOfTokens right
    else some (.error .missingEquals)
  | some _ => some (.error .missingNonterminal)

end RuleLine

end ParseForest
