import ParseForest.Grammar.Symbol
import ParseForest.GrammarText.RuleLine
import ParseForest.Text.Line
import ParseForest.Text.Sorted

/-! # What a text says about a grammar

A text looked at line by line, before any grammar is made of it.  A line holds a rule unless it is
blank or a comment.  Such a line states a clause, which is a name, an equals sign and tokens without
another equals sign; or else it is faulty, and what is wrong is the first thing that keeps it from
being a clause.  The clauses of one name give their alternatives one after the other. -/

namespace ParseForest

/-- The symbol that a token stands for in an alternative, where an empty terminal stands for none. -/
def Token.symbol? : Token → Option Symbol
  | .nonterminal name => some (.nonterminal name)
  | .terminal text => if text = "" then none else some (.terminal text)
  | .equals => none
  | .bar => none

namespace GrammarText

/-! ### Lines -/

/-- The line is not blank, and its first character that is not white space begins no comment. -/
def HoldsRule (line : String) : Prop :=
  ∃ before c rest, line.toList = before ++ c :: rest ∧
    (∀ space ∈ before, Text.isWhiteSpace space = true) ∧ Text.isWhiteSpace c = false ∧
      c ≠ ';' ∧ c ≠ '#'

theorem holdsRule_iff {line : String} : HoldsRule line ↔ RuleLine.isRuleLine line = true := by
  unfold RuleLine.isRuleLine Text.trimStart
  constructor
  · rintro ⟨before, c, rest, hline, hbefore, hc, hcomment⟩
    rw [hline, List.dropWhile_append_of_pos hbefore, List.dropWhile_cons_of_neg (by simp [hc])]
    simpa using hcomment
  · intro h
    have hsplit := List.takeWhile_append_dropWhile (p := Text.isWhiteSpace) (l := line.toList)
    have hbefore := List.all_takeWhile (p := Text.isWhiteSpace) (l := line.toList)
    cases hdrop : line.toList.dropWhile Text.isWhiteSpace with
    | nil =>
        rw [hdrop] at h
        exact absurd h Bool.false_ne_true
    | cons c rest =>
        have hc := List.head?_dropWhile_not Text.isWhiteSpace line.toList
        rw [hdrop] at h hsplit hc
        refine ⟨_, c, rest, hsplit.symm, List.all_eq_true.mp hbefore, hc, ?_⟩
        simpa using h

instance (line : String) : Decidable (HoldsRule line) :=
  decidable_of_iff _ holdsRule_iff.symm

/-- The lines that hold a rule, each with its number among all lines. -/
def ruleLines (text : String) : List (String × Nat) :=
  ((Text.lines text).zipIdx 1).filter fun line => HoldsRule line.1

/-- What is wrong with a line that should hold a rule. -/
inductive LineFault (line : String) : Fault → Prop
  | unmatchedQuote : (∀ tokens, Token.ofLine line ≠ .ok tokens) → LineFault line .unmatchedQuote
  | missingNonterminal {first : Token} {rest : List Token} :
      Token.ofLine line = .ok (first :: rest) → (∀ name, first ≠ .nonterminal name) →
      LineFault line .missingNonterminal
  | missingEquals {name : String} {rest : List Token} :
      Token.ofLine line = .ok (.nonterminal name :: rest) → rest.head? ≠ some .equals →
      LineFault line .missingEquals
  | unexpectedEquals {name : String} {right : List Token} :
      Token.ofLine line = .ok (.nonterminal name :: .equals :: right) → .equals ∈ right →
      LineFault line .unexpectedEquals

/-! ### Clauses -/

/-- What a line states: a name, the tokens behind the equals sign, and the number of the line. -/
structure Clause where
  name : String
  right : List Token
  number : Nat
deriving DecidableEq, Repr

/-- The clause on a numbered line, if the line states one. -/
def Clause.ofLine? (line : String × Nat) : Option Clause :=
  match Token.ofLine line.1 with
  | .ok (.nonterminal name :: .equals :: right) =>
    if .equals ∈ right then none else some ⟨name, right, line.2⟩
  | _ => none

/-- The alternatives of a clause: the parts between the bars, empty parts too. -/
def Clause.alternatives (clause : Clause) : List Alternative :=
  (clause.right.splitOn .bar).map fun part => part.filterMap Token.symbol?

/-- The clauses of a text, in order. -/
def clauses (text : String) : List Clause :=
  (ruleLines text).filterMap Clause.ofLine?

/-! ### Names -/

/-- The names with a clause, as they occur. -/
def definedNames (text : String) : List String :=
  (clauses text).map Clause.name

/-- The alternatives that the clauses of a name give it, one clause after the other. -/
def writtenAlternatives (text name : String) : List Alternative :=
  ((clauses text).filter fun clause => clause.name = name).flatMap Clause.alternatives

/-- The names in right-hand sides, met in the sorted order of the names defined and in the order of
the alternatives of each, which count once. -/
def usedNames (text : String) : List String :=
  (Text.sorted (definedNames text).eraseDups).flatMap fun name =>
    (writtenAlternatives text name).eraseDups.flatten.filterMap Symbol.nonterminal?

/-- The names in right-hand sides that have no clause. -/
def undefinedNames (text : String) : List String :=
  (usedNames text).filter fun name => name ∉ definedNames text

/-- The error reports a name that has no clause, at the first of the clauses that use it. -/
structure ReportsUndefined (file text name : String) (error : Located Fault) : Prop where
  fault_eq : error.fault = .malformed (.undefinedNonterminal name)
  located : ∃ clause ∈ clauses text, error.location = ⟨file, clause.number⟩ ∧
    .nonterminal name ∈ clause.right ∧
      ∀ other ∈ clauses text, .nonterminal name ∈ other.right → clause.number ≤ other.number
  line_pos : 0 < error.location.line

end GrammarText

end ParseForest
