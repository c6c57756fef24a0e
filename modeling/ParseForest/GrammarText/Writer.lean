import ParseForest.Grammar.Basic
import ParseForest.GrammarText.Lexeme

/-! # Writing a grammar

The text of a grammar: a line for each rule, with an arrow behind the name and bars between the
alternatives.  Each terminal is quoted by a character that does not occur in it, which `quote`
chooses.  Reading the text gives the grammar back when its names can be names and its terminals
can be quoted, and the rule of the start symbol comes first. -/

namespace ParseForest.GrammarText

/-- A symbol as it is written. -/
def writeSymbol (quote : String → Char) : Symbol → String
  | .nonterminal name => name
  | .terminal text => String.ofList (quote text :: text.toList ++ [quote text])

/-- An alternative as it is written; without symbols it is an empty terminal. -/
def writeAlternative (quote : String → Char) : Alternative → String
  | [] => "''"
  | symbol :: rest => Text.spaced ((symbol :: rest).map (writeSymbol quote))

/-- The line of a rule. -/
def writeRule (quote : String → Char) (rule : Rule) : String :=
  rule.name ++ " -> " ++ " | ".intercalate (rule.alternatives.map (writeAlternative quote))

/-- The text of some rules, a line for each. -/
def writeRules (quote : String → Char) (rules : List Rule) : String :=
  String.join (rules.map fun rule => writeRule quote rule ++ "\n")

/-- A quote that does not occur in the text, if one of the two does not. -/
def plainQuote (text : String) : Char :=
  if '\'' ∈ text.toList then '"' else '\''

/-- The text of a grammar, with the rule of its start symbol first. -/
def write (g : Grammar) : String :=
  writeRules plainQuote <|
    (g.rules.filter fun rule => rule.name = g.start) ++
      g.rules.filter fun rule => rule.name ≠ g.start

/-! ### What can be written -/

/-- The name is read as one name at the beginning of a line. -/
def IsName (name : String) : Prop :=
  name ≠ "" ∧ Token.IsNamePart name.toList ∧
    name.toList.head? ≠ some ';' ∧ name.toList.head? ≠ some '#'

instance (name : String) : Decidable (IsName name) :=
  inferInstanceAs (Decidable (_ ∧ _))

/-- The text can stand between quotes on a line. -/
def IsQuotable (text : String) : Prop :=
  text ≠ "" ∧ '\n' ∉ text.toList ∧ ('\'' ∉ text.toList ∨ '"' ∉ text.toList)

instance (text : String) : Decidable (IsQuotable text) :=
  inferInstanceAs (Decidable (_ ∧ _))

/-- Every name is a name and every terminal can be quoted. -/
def Writable (g : Grammar) : Prop :=
  (∀ name ∈ g.names, IsName name) ∧
    ∀ text ∈ g.rightHandSymbols.filterMap Symbol.terminal?, IsQuotable text

instance (g : Grammar) : Decidable (Writable g) :=
  inferInstanceAs (Decidable (_ ∧ _))

end ParseForest.GrammarText
