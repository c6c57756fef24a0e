import ParseForest.Arithmetic.Expression
import ParseForest.Proofs.Chart.Derivations
import ParseForest.Proofs.Simplifier.Normal
import ParseForest.Tree.Reading

/-! # Simplification keeps what is read

A contraction takes a node away from its only child, or moves an operator from between its operands into
the label above them.  Either way the tokens read are the same (`Contracts.reading_eq`), so a simplified
tree reads like the tree itself, whatever that is labelled with (`reading_simplify`).  A tree without
operations reads as its leaves (`Tree.reading_eq_leaves`).

The operations that simplification makes have two operands, and the other nodes keep the number of their
children (`binaryOperations_simplify`).  The labels of a derivation are nonterminals, so it has no
operations before it is simplified (`Tree.Derives.not_isOperation`). -/

namespace ParseForest

open Arithmetic (IsOperation)

/-! ### Reading a node -/

namespace Tree

variable {operators : List String} {label : Symbol} {children : List Tree} {t : Tree}

theorem reading_node (h : ¬IsOperation operators (node label children)) :
    (node label children).reading operators = readingAll operators children := by
  cases label with
  | nonterminal name => cases children <;> rfl
  | terminal text =>
      cases children with
      | nil => rfl
      | cons first rest => exact if_neg h

theorem reading_operation {operator : String} (h : operator ∈ operators) (first : Tree)
    (rest : List Tree) :
    (node (.terminal operator) (first :: rest)).reading operators =
      first.reading operators ++ operator :: readingAll operators rest :=
  if_pos h

theorem reading_node_congr {f : Tree → Tree}
    (h : ∀ child ∈ children, (f child).reading operators = child.reading operators) :
    (node label (children.map f)).reading operators = (node label children).reading operators := by
  have hall : ∀ ts ⊆ children, readingAll operators (ts.map f) = readingAll operators ts := by
    intro ts hsub
    rw [readingAll_eq, readingAll_eq, List.flatMap_map]
    exact List.flatMap_congr fun child hmem => h child (hsub hmem)
  by_cases hop : IsOperation operators (node label children)
  · cases label with
    | nonterminal name => exact hop.elim
    | terminal operator =>
        cases children with
        | nil => rfl
        | cons first rest =>
            rw [List.map_cons, reading_operation hop, reading_operation hop, h first List.mem_cons_self,
              hall rest (List.subset_cons_self first rest)]
  · have hafter : ¬IsOperation operators (node label (children.map f)) := by
      cases label <;> exact hop
    rw [reading_node hop, reading_node hafter, hall children (List.Subset.refl children)]

theorem reading_eq_leaves (h : ∀ u ∈ t.subtrees, ¬IsOperation operators u) :
    t.reading operators = t.leaves := by
  induction t using Tree.induction with
  | leaf text => rfl
  | node label children ih =>
      obtain ⟨hnot, hchildren⟩ := forall_mem_subtrees_node.mp h
      rw [reading_node hnot, leaves, readingAll_eq, leavesAll_eq]
      exact List.flatMap_congr fun child hmem => ih child hmem (hchildren child hmem)

theorem Derives.not_isOperation {expands : String → Alternative → Prop} (h : t.Derives expands) :
    ∀ u ∈ t.subtrees, ¬IsOperation operators u := by
  intro u hu hop
  cases h.of_mem_subtrees u hu with
  | leaf text => exact hop
  | node name children => exact hop

/-- Every operation in the tree has two operands. -/
def BinaryOperations (operators : List String) (t : Tree) : Prop :=
  ∀ u ∈ t.subtrees, IsOperation operators u → u.children.length = 2

theorem binaryOperations_node :
    BinaryOperations operators (node label children) ↔
      (IsOperation operators (node label children) → children.length = 2) ∧
        ∀ child ∈ children, BinaryOperations operators child :=
  forall_mem_subtrees_node

end Tree

/-! ### Reading after a contraction -/

namespace Simplifier

variable {s : Simplifier} {label : Symbol} {children : List Tree} {t u : Tree}

theorem not_isOperation_of_holds {among : List String} (h : s.structural.holds label = true) :
    ¬IsOperation among (.node label children) := by
  cases label with
  | terminal text => simp [Structural.holds] at h
  | nonterminal name => exact id

theorem Contracts.reading_eq (h : s.Contracts t u) :
    u.reading s.operators = t.reading s.operators := by
  cases h with
  | only _ hlabel =>
      rw [Tree.reading_node (not_isOperation_of_holds hlabel), Tree.readingAll_eq, List.flatMap_singleton]
  | operation left right hlabel hoperator =>
      rw [Tree.reading_operation hoperator, Tree.reading_node (not_isOperation_of_holds hlabel)]
      rfl

theorem reading_rebuild (s : Simplifier) (label : Symbol) (children : List Tree) :
    (s.rebuild label children).reading s.operators = (Tree.node label children).reading s.operators := by
  rcases rebuild_cases s label children with h | ⟨-, heq⟩
  · exact h.reading_eq
  · rw [heq]

/-- What is read stays, also around operations that were there before. -/
theorem reading_simplify (s : Simplifier) (t : Tree) :
    (s.simplify t).reading s.operators = t.reading s.operators := by
  induction t using Tree.induction with
  | leaf text => rfl
  | node label children ih => rw [simplify_node, reading_rebuild, Tree.reading_node_congr ih]

/-! ### The operands of operations -/

theorem Contracts.binaryOperations (h : s.Contracts (.node label children) u)
    (hchildren : ∀ child ∈ children, Tree.BinaryOperations s.operators child) :
    Tree.BinaryOperations s.operators u := by
  cases h with
  | only => exact hchildren u List.mem_cons_self
  | operation left right =>
      simp only [List.forall_mem_cons] at hchildren
      obtain ⟨hleft, -, hright, -⟩ := hchildren
      refine Tree.binaryOperations_node.mpr ⟨fun _ => rfl, ?_⟩
      simp only [List.forall_mem_cons]
      exact ⟨hleft, hright, fun _ h => absurd h List.not_mem_nil⟩

theorem binaryOperations_simplify (h : Tree.BinaryOperations s.operators t) :
    Tree.BinaryOperations s.operators (s.simplify t) := by
  induction t using Tree.induction with
  | leaf text => exact h
  | node label children ih =>
      obtain ⟨hhere, hbelow⟩ := Tree.binaryOperations_node.mp h
      have hchildren : ∀ child ∈ children.map s.simplify, Tree.BinaryOperations s.operators child :=
        List.forall_mem_map.mpr fun child hmem => ih child hmem (hbelow child hmem)
      rw [simplify_node]
      rcases rebuild_cases s label (children.map s.simplify) with hc | ⟨-, heq⟩
      · exact hc.binaryOperations hchildren
      · rw [heq, Tree.binaryOperations_node, List.length_map]
        refine ⟨fun hop => hhere ?_, hchildren⟩
        cases label <;> exact hop

/-- **Simplification loses and reorders no token.**  If no node of a tree is labelled with one of the
operators, the simplified tree reads from left to right, each operator between its operands, as the
leaves of the tree, and each node that is labelled with an operator then has two operands.  The trees of
a parse are such trees, so a simplified parse reads as the tokens. -/
theorem simplify_reads_leaves (s : Simplifier) :
    (∀ t : Tree, (∀ u ∈ t.subtrees, ¬IsOperation s.operators u) →
      (s.simplify t).reading s.operators = t.leaves ∧
        ∀ u ∈ (s.simplify t).subtrees, IsOperation s.operators u → u.children.length = 2) ∧
    ∀ g : Grammar, g.WellFormed → ∀ (tokens : List String) (direction : Direction),
      ∀ t ∈ parse g tokens direction,
        (∀ u ∈ t.subtrees, ¬IsOperation s.operators u) ∧
          (s.simplify t).reading s.operators = tokens := by
  have hreads : ∀ t : Tree, (∀ u ∈ t.subtrees, ¬IsOperation s.operators u) →
      (s.simplify t).reading s.operators = t.leaves := by
    intro t h
    rw [reading_simplify, Tree.reading_eq_leaves h]
  refine ⟨fun t h => ⟨hreads t h, ?_⟩, fun g hg tokens direction t ht => ?_⟩
  · exact binaryOperations_simplify fun u hu hop => absurd hop (h u hu)
  · obtain ⟨-, hderives, hleaves⟩ := Chart.derives_of_mem_parse hg.names_nodup ht
    have hnone : ∀ u ∈ t.subtrees, ¬IsOperation s.operators u := hderives.not_isOperation
    exact ⟨hnone, (hreads t hnone).trans hleaves⟩

/-- A sign in front of a sum. -/
def signedTree : Tree :=
  .node (.nonterminal "Signed")
    [.leaf "-", .node (.nonterminal "E") [.leaf "a", .leaf "+", .node (.nonterminal "T") [.leaf "b"]]]

/-- The parse of a sum. -/
def sumTree : Tree :=
  .node (.nonterminal "E")
    [.node (.nonterminal "E") [.node (.nonterminal "T") [.node (.nonterminal "F") [.leaf "a"]]],
      .leaf "+", .node (.nonterminal "E") [.node (.nonterminal "T") [.leaf "b"]]]

/-- The sign stays a leaf, as it has no operand before it; the sum becomes an operation, whose operator
is read between its operands, and so does a sum that was parsed. -/
theorem simplify_reads_leaves_signedTree :
    (∀ u ∈ signedTree.subtrees, ¬IsOperation standard.operators u) ∧
      standard.simplify signedTree = .node (.nonterminal "Signed")
        [.leaf "-", .node (.terminal "+") [.leaf "a", .leaf "b"]] ∧
      (standard.simplify signedTree).reading standard.operators = ["-", "a", "+", "b"] ∧
      Chart.sumGrammar.WellFormed ∧ sumTree ∈ parse Chart.sumGrammar ["a", "+", "b"] .leftmost ∧
      (standard.simplify sumTree).reading standard.operators = ["a", "+", "b"] := by
  have hnone : ∀ u ∈ signedTree.subtrees, ¬IsOperation standard.operators u := by
    simp [signedTree, Tree.subtrees, Tree.subtreesAll, IsOperation]
  have hg : Chart.sumGrammar.WellFormed := by decide
  have hmem : sumTree ∈ parse Chart.sumGrammar ["a", "+", "b"] .leftmost := by decide
  obtain ⟨htrees, hparses⟩ := simplify_reads_leaves standard
  exact ⟨hnone, by decide, (htrees signedTree hnone).1, hg, hmem, (hparses _ hg _ _ _ hmem).2⟩

end Simplifier

end ParseForest
