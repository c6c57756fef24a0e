import ParseForest.GrammarText.Token

/-! # Lines and the tokens they spell

The tokens of a line described by what the line looks like: white space, and one lexeme for each
token.  A line has no tokens only if a quote is left open at its end. -/

namespace ParseForest.Token

/-- The quote that is open at the end of some characters, when `quote` is open before them. -/
def openQuote : (quote : Option Char) → List Char → Option Char
  | quote, [] => quote
  | none, c :: cs => openQuote (if isQuote c then some c else none) cs
  | some q, c :: cs => openQuote (if c = q then none else some q) cs

/-- The characters can be a name, or the part of a name that is left. -/
def IsNamePart (cs : List Char) : Prop :=
  (∀ c ∈ cs, Text.isWhiteSpace c = false ∧ c ≠ '|' ∧ c ≠ '=' ∧ isQuote c = false) ∧
    ¬ ['-', '>'] <:+: cs

theorem isNamePart_iff {cs : List Char} :
    IsNamePart cs ↔
      (cs.all fun c => !Text.isWhiteSpace c && c ≠ '|' && c ≠ '=' && !isQuote c) = true ∧
        ¬ ['-', '>'] <:+: cs := by
  simp [IsNamePart, and_assoc]

instance (cs : List Char) : Decidable (IsNamePart cs) :=
  have : Decidable (['-', '>'] <:+: cs) := List.instDecidableIsInfixOfDecidableEq _ _
  decidable_of_iff _ isNamePart_iff.symm

/-- The characters are white space and one lexeme for each token, in order.  A name goes on as far
as it can. -/
inductive Spells : List Char → List Token → Prop
  | done : Spells [] []
  | space {c : Char} {cs : List Char} {tokens : List Token} :
      Text.isWhiteSpace c = true → Spells cs tokens → Spells (c :: cs) tokens
  | equals {cs : List Char} {tokens : List Token} :
      Spells cs tokens → Spells ('=' :: cs) (.equals :: tokens)
  | arrow {cs : List Char} {tokens : List Token} :
      Spells cs tokens → Spells ('-' :: '>' :: cs) (.equals :: tokens)
  | bar {cs : List Char} {tokens : List Token} :
      Spells cs tokens → Spells ('|' :: cs) (.bar :: tokens)
  | terminal {quote : Char} {text cs : List Char} {tokens : List Token} :
      isQuote quote = true → quote ∉ text → Spells cs tokens →
      Spells (quote :: text ++ quote :: cs) (.terminal (String.ofList text) :: tokens)
  | nonterminal {name cs : List Char} {tokens : List Token} :
      name ≠ [] → IsNamePart name → endsName cs = true → Spells cs tokens →
      Spells (name ++ cs) (.nonterminal (String.ofList name) :: tokens)

end ParseForest.Token
