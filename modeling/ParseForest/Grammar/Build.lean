import ParseForest.Grammar.Basic
import ParseForest.Grammar.Problem

/-! # Building grammars

A grammar is built from a start symbol and a list of entries, each a left-hand side with some
alternatives.  The entries of one nonterminal are gathered into one rule, in which an
alternative that is repeated counts once (equal alternatives would give the same derivation
twice).  `Grammar.ofRules` refuses whatever is not a grammar and reports every problem;
`Grammar.ofProductions` groups single productions first, so a left-hand side is met once there. -/

namespace ParseForest

/-- A left-hand side with some of its alternatives. -/
abbrev RuleEntry := Symbol × List Alternative

namespace Grammar

/-- All alternatives that the entries give a nonterminal, each once, at its first place. -/
def gatheredAlternatives (entries : List RuleEntry) (name : String) : List Alternative :=
  ((entries.filter fun entry => entry.1 = .nonterminal name).flatMap Prod.snd).eraseDups

/-- The nonterminals on left-hand sides, in the order of first appearance. -/
def entryNames (entries : List RuleEntry) : List String :=
  (entries.filterMap fun entry => entry.1.nonterminal?).eraseDups

/-- One rule for each nonterminal on a left-hand side. -/
def gather (entries : List RuleEntry) : List Rule :=
  (entryNames entries).map fun name => ⟨name, gatheredAlternatives entries name⟩

/-! ### Problems -/

/-- A terminal on a left-hand side is a problem each time. -/
def leftHandProblems (entries : List RuleEntry) : List Problem :=
  (entries.filterMap fun entry => entry.1.terminal?).map .terminalLeftHandSide

/-- The start symbol has to be a nonterminal with a rule. -/
def startProblems (start : Symbol) (rules : List Rule) : List Problem :=
  match start with
  | .terminal text => [.startNotNonterminal text]
  | .nonterminal name =>
    if name ∈ rules.map Rule.name then [] else [.missingStart name]

/-- A rule has to have an alternative, and its right-hand sides have to be defined. -/
def ruleProblems (defined : List String) (rule : Rule) : List Problem :=
  if rule.alternatives.isEmpty then
    [.noAlternatives rule.name]
  else
    ((rule.alternatives.flatten.filterMap Symbol.nonterminal?).filter
      fun name => name ∉ defined).map .undefinedNonterminal

/-- The problems of the rules sorted by name, each reported once. -/
def definitionProblems (rules : List Rule) : List Problem :=
  ((rules.mergeSort fun a b => a.name ≤ b.name).flatMap
    (ruleProblems (rules.map Rule.name))).eraseDups

/-- All problems of a start symbol and a list of entries, in the order of report. -/
def problems (start : Symbol) (entries : List RuleEntry) : List Problem :=
  leftHandProblems entries ++ startProblems start (gather entries) ++
    definitionProblems (gather entries)

/-! ### Construction -/

/-- The grammar with the given start symbol and rules, or everything wrong with them. -/
def ofRules (start : Symbol) (entries : List RuleEntry) : Except Malformed Grammar :=
  match problems start entries with
  | [] => .ok ⟨start.text, gather entries⟩
  | problem :: more => .error ⟨problem :: more⟩

/-- The right-hand sides of each left-hand side, in the order of first appearance. -/
def groupProductions (productions : List Production) : List RuleEntry :=
  (productions.map Production.lhs).eraseDups.map fun lhs =>
    (lhs, (productions.filter fun production => production.lhs = lhs).map Production.rhs)

/-- The grammar with the given start symbol and productions, or everything wrong with them. -/
def ofProductions (start : Symbol) (productions : List Production) : Except Malformed Grammar :=
  ofRules start (groupProductions productions)

/-- The grammar with another start symbol, which has to have a rule. -/
def withStart (g : Grammar) (start : String) : Except Malformed Grammar :=
  if g.defines start then .ok { g with start } else .error ⟨[.missingStart start]⟩

end Grammar

end ParseForest
