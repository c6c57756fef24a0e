import ParseForest.Chart.Basic

/-! # Statistics of a chart -/

namespace ParseForest

/-- How much a chart holds. -/
structure Statistics where
  /-- The length of the input. -/
  tokens : Nat
  /-- The number of spans over which something is recognized. -/
  cells : Nat
  /-- The number of pairs of a span and a nonterminal recognized over it. -/
  recognitions : Nat
  /-- The number of expansions of all these pairs. -/
  expansions : Nat
deriving DecidableEq, Repr

/-- The statistics in one line. -/
def Statistics.render (s : Statistics) : String :=
  toString s.tokens ++ " tokens, " ++ toString s.cells ++ " non-empty cells, " ++
    toString s.recognitions ++ " recognized nonterminals, " ++ toString s.expansions ++ " proofs"

/-- The sum of some numbers. -/
def total (numbers : List Nat) : Nat :=
  numbers.foldr (· + ·) 0

theorem total_append (as bs : List Nat) : total (as ++ bs) = total as + total bs := by
  induction as with
  | nil => exact (Nat.zero_add _).symm
  | cons a as ih =>
      unfold total at ih ⊢
      rw [List.cons_append, List.foldr_cons, List.foldr_cons, ih, Nat.add_assoc]

theorem total_flatten (lists : List (List Nat)) : total lists.flatten = total (lists.map total) := by
  induction lists with
  | nil => rfl
  | cons list lists ih =>
      rw [List.flatten_cons, total_append, ih]
      rfl

theorem total_perm {as bs : List Nat} (h : as.Perm bs) : total as = total bs :=
  h.foldr_eq' (fun a _ b _ c => Nat.add_left_comm b a c) 0

/-- The statistics of a chart. -/
def Chart.statistics (chart : Chart) : Statistics :=
  let cells := chart.spans.map chart.table.cell
  { tokens := chart.tokens.length
    cells := (cells.filter fun cell => !cell.isEmpty).length
    recognitions := total (cells.map List.length)
    expansions := total (cells.flatten.map fun recognition => recognition.expansions.length) }

end ParseForest
