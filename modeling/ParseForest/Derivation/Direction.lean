/-! # Directions

Derivations are listed from the left or from the right.  A direction is read from a word in any
mixture of ASCII capitals and small letters, with nothing trimmed. -/

namespace ParseForest

/-- The side from which derivations are listed and nonterminals expanded. -/
inductive Direction where
  | leftmost
  | rightmost
deriving DecidableEq, Repr

/-- A word that names no direction. -/
structure UnknownDirection where
  word : String
deriving DecidableEq, Repr

/-- The wording of the refusal. -/
def UnknownDirection.message (unknown : UnknownDirection) : String :=
  "Unknown derivation direction `" ++ unknown.word ++ "` (expected `leftmost` or `rightmost`)"

namespace Direction

/-- The direction that a word names. -/
def parse (word : String) : Except UnknownDirection Direction :=
  let lower := String.ofList (word.toList.map Char.toLower)
  if lower = "left" ∨ lower = "leftmost" then .ok leftmost
  else if lower = "right" ∨ lower = "rightmost" then .ok rightmost
  else .error ⟨word⟩

/-- The full word for a direction. -/
def name : Direction → String
  | leftmost => "leftmost"
  | rightmost => "rightmost"

/-- Puts what comes in order from the left into the order of the direction. -/
def arrange {α : Type} : Direction → List α → List α
  | leftmost, items => items
  | rightmost, items => items.reverse

@[simp] theorem mem_arrange {α : Type} {direction : Direction} {items : List α} {item : α} :
    item ∈ direction.arrange items ↔ item ∈ items := by
  cases direction <;> simp [arrange]

end Direction

end ParseForest
