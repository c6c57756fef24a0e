/-! # What can be wrong with a grammar

The problems that keep a list of rules from being a grammar, and their wording. -/

namespace ParseForest

/-- One thing wrong with a start symbol or a list of rules. -/
inductive Problem where
  /-- The start symbol has no rule. -/
  | missingStart (name : String)
  /-- The start symbol is a terminal. -/
  | startNotNonterminal (text : String)
  /-- A rule has a terminal on its left-hand side. -/
  | terminalLeftHandSide (text : String)
  /-- A nonterminal has a rule without alternatives. -/
  | noAlternatives (name : String)
  /-- A right-hand side uses a nonterminal without a rule. -/
  | undefinedNonterminal (name : String)
deriving DecidableEq, Repr

/-- The wording of a problem. -/
def Problem.message : Problem → String
  | missingStart name => "Start symbol `" ++ name ++ "` has no productions"
  | startNotNonterminal text => "Start symbol `" ++ text ++ "` is a terminal"
  | terminalLeftHandSide text => "Terminal `" ++ text ++ "` cannot be rewritten"
  | noAlternatives name => "Nonterminal `" ++ name ++ "` has no alternatives"
  | undefinedNonterminal name => "Could not find definition for `" ++ name ++ "`"

/-- Everything wrong with one list of rules, in the order of report. -/
structure Malformed where
  problems : List Problem
deriving DecidableEq, Repr

/-- The wording of a whole report. -/
def Malformed.message (m : Malformed) : String :=
  "Malformed grammar: " ++ "; ".intercalate (m.problems.map Problem.message)

end ParseForest
