import ParseForest.Grammar.Basic
import ParseForest.Settle

/-! # Least heights

How high a derivation tree of a nonterminal has to be at the least before it ends in terminals.
A nonterminal without such a tree has no height.

Heights are found by sweeps over the rules.  A visit to a rule takes the least height over the
alternatives that have one so far.  It may be too great, because a lower alternative has no height yet;
a later visit then finds a lower one and puts it in its place.  Sweeps go on until one changes nothing.
After `n` sweeps nothing is too great that has a least height of at most `n`, and a least tree repeats no
nonterminal on a path, so there are no more sweeps that change something than there are rules. -/

namespace ParseForest

/-- Nonterminals with their heights, as far as known. -/
abbrev Heights := List (String × Nat)

namespace Heights

/-- The height of a symbol; a terminal has none to climb. -/
def ofSymbol (known : Heights) : Symbol → Option Nat
  | .terminal _ => some 0
  | .nonterminal name => known.lookup name

/-- The greatest height among symbols, if all are known. -/
def deepest (known : Heights) : List Symbol → Option Nat
  | [] => some 0
  | symbol :: rest =>
    match known.ofSymbol symbol, known.deepest rest with
    | some height, some more => some (max height more)
    | _, _ => none

/-- The height of a node over an alternative, if all its symbols are known. -/
def ofAlternative (known : Heights) (alternative : Alternative) : Option Nat :=
  (known.deepest alternative).map (· + 1)

/-- The least height of a node over one of the alternatives. -/
def least (known : Heights) (alternatives : List Alternative) : Option Nat :=
  (alternatives.filterMap known.ofAlternative).min?

/-- Whether a height is news of a nonterminal: there is none so far, or only a greater one. -/
def improves (known : Heights) (name : String) (height : Nat) : Bool :=
  (known.lookup name).all fun current => height < current

/-- The heights with a new one of a nonterminal, in the place of the old one if there is any. -/
def put (known : Heights) (name : String) (height : Nat) : Heights :=
  (name, height) :: known.filter fun entry => entry.1 ≠ name

/-- The heights known after a visit to one rule. -/
def visit (known : Heights) (rule : Rule) : Heights :=
  match known.least rule.alternatives with
  | none => known
  | some height => if known.improves rule.name height then known.put rule.name height else known

/-- The heights known after visits to all the rules in turn.  Each visit sees what the visits before it
have found. -/
def sweep (rules : List Rule) (known : Heights) : Heights :=
  rules.foldl visit known

end Heights

/-- The least height of every nonterminal that derives a sentence. -/
def Grammar.heights (g : Grammar) : Heights :=
  settle (Heights.sweep g.rules) g.rules.length []

end ParseForest
