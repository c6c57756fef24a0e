import ParseForest.Grammar.Symbol
import ParseForest.Text.Sorted

/-! # Context-free grammars

A grammar is a start symbol and a list of rules, one for each nonterminal, in the order in which
the nonterminals were introduced.  That order carries no meaning: two grammars are the same
(`Grammar.Same`) when they start alike and give every nonterminal the same alternatives, and
what is reported about a grammar is sorted by name.  The order of the alternatives of one rule
does carry meaning, since derivations are listed in it. -/

namespace ParseForest

/-- A nonterminal with its alternatives. -/
structure Rule where
  name : String
  alternatives : List Alternative
deriving DecidableEq, Repr

/-- One alternative of one left-hand side. -/
structure Production where
  lhs : Symbol
  rhs : Alternative
deriving DecidableEq, Repr

/-- A start symbol and the rules, one for each nonterminal. -/
structure Grammar where
  start : String
  rules : List Rule
deriving DecidableEq, Repr

namespace Grammar

/-- The alternatives of a nonterminal, if it has a rule. -/
def alternatives? (g : Grammar) (name : String) : Option (List Alternative) :=
  (g.rules.find? fun rule => rule.name = name).map Rule.alternatives

/-- The alternatives of a nonterminal, none if it has no rule. -/
def alternatives (g : Grammar) (name : String) : List Alternative :=
  (g.alternatives? name).getD []

/-- The nonterminals, in the order of their rules. -/
def names (g : Grammar) : List String :=
  g.rules.map Rule.name

/-- Whether a name has a rule. -/
def defines (g : Grammar) (name : String) : Bool :=
  (g.alternatives? name).isSome

/-- The rules in the order of their names. -/
def sortedRules (g : Grammar) : List Rule :=
  g.rules.mergeSort fun a b => a.name ≤ b.name

/-- The nonterminals in increasing order. -/
def nonterminals (g : Grammar) : List String :=
  Text.sorted g.names

/-- All symbols on right-hand sides, as they occur. -/
def rightHandSymbols (g : Grammar) : List Symbol :=
  g.rules.flatMap fun rule => rule.alternatives.flatten

/-- The distinct terminals in increasing order. -/
def terminals (g : Grammar) : List String :=
  Text.sorted (g.rightHandSymbols.filterMap Symbol.terminal?).eraseDups

/-- Each alternative of each rule. -/
def productions (g : Grammar) : List Production :=
  g.rules.flatMap fun rule =>
    rule.alternatives.map fun alternative => ⟨.nonterminal rule.name, alternative⟩

/-! ### Sameness -/

/-- Two grammars are the same when they start alike and expand every nonterminal alike. -/
def Same (g h : Grammar) : Prop :=
  g.start = h.start ∧ ∀ name, g.alternatives? name = h.alternatives? name

theorem alternatives?_eq_none {g : Grammar} {name : String} :
    g.alternatives? name = none ↔ name ∉ g.names := by
  simp [alternatives?, names]

theorem defines_iff {g : Grammar} {name : String} : g.defines name = true ↔ name ∈ g.names := by
  have h := @alternatives?_eq_none g name
  cases hd : g.alternatives? name <;> simp_all [defines]

/-- Sameness has to be looked at for the nonterminals of either grammar only. -/
theorem same_iff {g h : Grammar} :
    g.Same h ↔ g.start = h.start ∧
      ∀ name ∈ g.names ++ h.names, g.alternatives? name = h.alternatives? name := by
  refine and_congr_right fun _ => ⟨fun hs name _ => hs name, fun hs name => ?_⟩
  by_cases hm : name ∈ g.names ++ h.names
  · exact hs name hm
  · rw [List.mem_append, not_or] at hm
    rw [alternatives?_eq_none.2 hm.1, alternatives?_eq_none.2 hm.2]

instance (g h : Grammar) : Decidable (g.Same h) :=
  decidable_of_iff _ same_iff.symm

end Grammar

end ParseForest
