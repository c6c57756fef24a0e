import ParseForest.Sentence.Height
import ParseForest.Sentence.Source
import ParseForest.Tree.Basic

/-! # Random sentences

A sentence of a grammar is generated by growing a derivation tree from its root and reading its
leaves.  The depth is a budget of levels: below a node one level less is left.  A node takes any
of its alternatives that can still end within the budget; if there is none it takes one of the
shallowest.  So the tree is no higher than the budget, or no higher than it has to be. -/

namespace ParseForest

/-- Why no sentence can be generated. -/
inductive GenerationError where
  /-- The nonterminal has no rule. -/
  | undefinedNonterminal (name : String)
  /-- The nonterminal derives no sentence. -/
  | unproductive (name : String)
deriving DecidableEq, Repr

/-- The wording of a failure. -/
def GenerationError.message : GenerationError → String
  | undefinedNonterminal name => "No definition for nonterminal `" ++ name ++ "`"
  | unproductive name => "Nonterminal `" ++ name ++ "` never derives a sentence"

/-- A computation that draws from a source and may fail; the source outlives a failure. -/
abbrev Generator := ExceptT GenerationError (StateM Source)

namespace Sentence

/-- The alternatives to choose from: those that fit into the budget, or else the shallowest. -/
def candidates (heights : Heights) (alternatives : List Alternative) (budget : Nat) :
    List Alternative :=
  let sized := alternatives.filterMap fun alternative =>
    (heights.ofAlternative alternative).map fun height => (alternative, height)
  let fitting := sized.filter fun candidate => candidate.2 ≤ budget
  if fitting.isEmpty then
    (sized.filter fun candidate => some candidate.2 = (sized.map Prod.snd).min?).map Prod.fst
  else
    fitting.map Prod.fst

/-- One of the candidates for a nonterminal.  Without candidates nothing is drawn. -/
def choose (name : String) : List Alternative → Generator Alternative
  | [] => throw (.unproductive name)
  | first :: rest => do
    let index ← modifyGet (Source.pick (first :: rest).length)
    return (first :: rest).getD index first

/-- A random derivation tree of a symbol.  The budget guides the choices; `levels` bounds the
height and is never the reason for a failure when it starts large enough. -/
def grow (g : Grammar) (heights : Heights) :
    (levels : Nat) → (budget : Nat) → Symbol → Generator Tree
  | _, _, .terminal text => return .leaf text
  | 0, _, .nonterminal name => throw (.unproductive name)
  | levels + 1, budget, .nonterminal name => do
    match g.alternatives? name with
    | none => throw (.undefinedNonterminal name)
    | some alternatives =>
      let alternative ← choose name (candidates heights alternatives budget)
      let children ← alternative.mapM (grow g heights levels (budget - 1))
      return .node (.nonterminal name) children

/-- The number of levels that is enough for a nonterminal and a budget. -/
def levels (heights : Heights) (name : String) (budget : Nat) : Nat :=
  max budget ((heights.lookup name).getD 1)

end Sentence

/-- A random derivation tree of a nonterminal. -/
def Grammar.grow (g : Grammar) (name : String) (depth : Nat) : Generator Tree :=
  let heights := g.heights
  Sentence.grow g heights (Sentence.levels heights name depth) depth (.nonterminal name)

/-- A random sentence of a nonterminal, and the source as it was left. -/
def Grammar.generateFrom (g : Grammar) (name : String) (depth : Nat) (source : Source) :
    Except GenerationError (List String) × Source :=
  (Tree.leaves <$> g.grow name depth).run.run source

/-- A random sentence of the grammar, and the source as it was left. -/
def Grammar.generate (g : Grammar) (depth : Nat) (source : Source) :
    Except GenerationError (List String) × Source :=
  g.generateFrom g.start depth source

end ParseForest
