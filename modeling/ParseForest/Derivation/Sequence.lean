import ParseForest.Derivation.Form
import ParseForest.Derivation.Valid

/-! # Derivations as sequences of forms

The notion of derivation without trees: a row of forms, each made from the one before by
expanding its leftmost (or rightmost) nonterminal. -/

namespace ParseForest

/-- The form of a sentence: its tokens as terminals. -/
def Form.ofTokens (tokens : List String) : Form :=
  tokens.map .terminal

namespace Grammar

/-- One step from form to form: the nonterminal expanded has only terminals on its left, or on
its right. -/
inductive Step (g : Grammar) : Direction → Form → Form → Prop
  | leftmost (before : List String) (name : String) (alternative : Alternative) (after : Form) :
      g.Expands name alternative →
      Step g .leftmost (Form.ofTokens before ++ .nonterminal name :: after)
        (Form.ofTokens before ++ alternative ++ after)
  | rightmost (before : Form) (name : String) (alternative : Alternative) (after : List String) :
      g.Expands name alternative →
      Step g .rightmost (before ++ .nonterminal name :: Form.ofTokens after)
        (before ++ alternative ++ Form.ofTokens after)

/-- The forms after the given one lead, step by step, to the last form. -/
inductive Steps (g : Grammar) (direction : Direction) (last : Form) : Form → List Form → Prop
  | done : Steps g direction last last []
  | step {form next : Form} {rest : List Form} :
      g.Step direction form next → Steps g direction last next rest →
      Steps g direction last form (next :: rest)

/-- A row of forms that derives the tokens from the start symbol. -/
def Derivation (g : Grammar) (direction : Direction) (tokens : List String)
    (forms : List Form) : Prop :=
  ∃ rest, forms = [.nonterminal g.start] :: rest ∧
    g.Steps direction (Form.ofTokens tokens) [.nonterminal g.start] rest

end Grammar

end ParseForest
