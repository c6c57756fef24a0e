import ParseForest.Grammar.Symbol
import ParseForest.GrammarText.Token
import ParseForest.Report.Located

/-! # Rule lines

A line holds a rule unless it is blank or a comment.  A rule is a name, an equals sign, and
alternatives with bars between them.  An empty terminal derives nothing, so it is left out of
its alternative; an alternative may be left without symbols. -/

namespace ParseForest

/-- The rule on one line. -/
structure RuleLine where
  name : String
  alternatives : List Alternative
  location : Location
deriving DecidableEq, Repr

namespace RuleLine

/-- Whether a line holds a rule: it is not blank, and does not begin as a comment. -/
def isRuleLine (line : String) : Bool :=
  match Text.trimStart line.toList with
  | [] => false
  | c :: _ => c ≠ ';' && c ≠ '#'

/-- The alternative that some tokens spell; the first token out of place is the fault. -/
def alternativeOfTokens : List Token → Except Fault Alternative
  | [] => .ok []
  | .equals :: _ => .error .unexpectedEquals
  | .bar :: _ => .error .unsplitAlternatives
  | .nonterminal name :: rest => (.nonterminal name :: ·) <$> alternativeOfTokens rest
  | .terminal text :: rest =>
    if text.isEmpty then alternativeOfTokens rest
    else (.terminal text :: ·) <$> alternativeOfTokens rest

/-- The alternatives between the bars of a right-hand side. -/
def alternativesOfTokens (tokens : List Token) : Except Fault (List Alternative) :=
  (tokens.splitOn .bar).mapM alternativeOfTokens

/-- The name and the alternatives that the tokens of a line spell. -/
def ofTokens (location : Location) : List Token → Except Fault RuleLine
  | [] => .error .unexpectedBlankLine
  | .nonterminal name :: .equals :: rest =>
    (fun alternatives => ⟨name, alternatives, location⟩) <$> alternativesOfTokens rest
  | .nonterminal _ :: _ => .error .missingEquals
  | _ :: _ => .error .missingNonterminal

/-- The rule on a line. -/
def ofLine (location : Location) (line : String) : Except Fault RuleLine :=
  Token.ofLine line >>= ofTokens location

end RuleLine

end ParseForest
