import ParseForest.Proofs.Derivation.Frontier
import ParseForest.Tree.Reverse

/-! # Derivations of reversed trees

Read from the right, a frontier is one of the reversed trees.  Where one run expands the first node, a run
from the other side over the reversed trees expands the last, so the two frontiers are each other's
reverses after every step (`expand?_reverseAll`), and so are their forms (`formsWithin_reverseAll`).  A
reversed tree has as many nodes, so both runs take as many steps, and the derivations are mirror images
(`forms_mirror`). -/

namespace ParseForest

/-- The other side. -/
def Direction.opposite : Direction → Direction
  | leftmost => rightmost
  | rightmost => leftmost

theorem Direction.mem_outer_reverse {α : Type} {direction : Direction} {before after : List α} {a : α} :
    a ∈ direction.opposite.outer after.reverse before.reverse ↔ a ∈ direction.outer before after := by
  cases direction with
  | leftmost => exact List.mem_reverse
  | rightmost => exact List.mem_reverse

namespace Tree

variable {direction : Direction} {before after children : List Tree} {label : Symbol}

/-! ### Reversed trees -/

theorem reverse_node (label : Symbol) (children : List Tree) :
    (node label children).reverse = node label (reverseAll children) := rfl

theorem root_reverse (t : Tree) : t.reverse.root = t.root := by
  cases t with
  | leaf text => rfl
  | node label children => rfl

theorem isLeaf_reverse (t : Tree) : t.reverse.isLeaf = t.isLeaf := by
  cases t with
  | leaf text => rfl
  | node label children => rfl

theorem reverseAll_append (ss ts : List Tree) :
    reverseAll (ss ++ ts) = reverseAll ts ++ reverseAll ss := by
  simp [reverseAll_eq]

theorem reverseAll_place :
    reverseAll (before ++ node label children :: after) =
      reverseAll after ++ node label (reverseAll children) :: reverseAll before := by
  rw [reverseAll_append, reverseAll, reverse_node, List.append_assoc, List.singleton_append]

theorem forall_isLeaf_reverseAll {frontier : List Tree} :
    (∀ t ∈ reverseAll frontier, t.isLeaf = true) ↔ ∀ t ∈ frontier, t.isLeaf = true := by
  simp only [reverseAll_eq, List.mem_reverse, List.forall_mem_map, isLeaf_reverse]

theorem internalNodes_reverse (t : Tree) : t.reverse.internalNodes = t.internalNodes := by
  induction t using Tree.induction with
  | leaf text => rfl
  | node label children ih =>
      rw [reverse_node, internalNodes, internalNodes]
      congr 1
      induction children with
      | nil => rfl
      | cons child children ihs =>
          obtain ⟨hchild, hchildren⟩ := List.forall_mem_cons.mp ih
          rw [reverseAll, internalNodesAll_append, ihs hchildren, internalNodesAll, internalNodesAll,
            internalNodesAll, hchild]
          omega

/-! ### Two runs from either side -/

theorem formOf_reverseAll (frontier : List Tree) :
    formOf (reverseAll frontier) = (formOf frontier).reverse := by
  unfold formOf
  rw [reverseAll_eq, List.map_reverse, List.map_map]
  congr 1
  exact List.map_congr_left fun t _ => root_reverse t

/-- One step: the next frontiers are each other's reverses again. -/
theorem expand?_reverseAll (direction : Direction) (frontier : List Tree) :
    expand? direction.opposite (reverseAll frontier) = (expand? direction frontier).map reverseAll := by
  rcases exists_place direction frontier with hleaves | ⟨before, label, children, after, rfl, houter⟩
  · rw [expand?_leaves hleaves, expand?_leaves (forall_isLeaf_reverseAll.mpr hleaves), Option.map_none]
  · have houter' : ∀ t ∈ direction.opposite.outer (reverseAll after) (reverseAll before),
        t.isLeaf = true := by
      intro t ht
      rw [reverseAll_eq, reverseAll_eq, Direction.mem_outer_reverse, Direction.outer_map] at ht
      obtain ⟨s, hs, rfl⟩ := List.mem_map.mp ht
      rw [isLeaf_reverse]
      exact houter s hs
    rw [expand?_place houter, reverseAll_place, expand?_place houter', Option.map_some,
      reverseAll_append, reverseAll_append, List.append_assoc]

/-- All steps: so are the forms of the two runs. -/
theorem formsWithin_reverseAll (direction : Direction) (steps : Nat) (frontier : List Tree) :
    formsWithin direction.opposite steps (reverseAll frontier) =
      (formsWithin direction steps frontier).map List.reverse := by
  induction steps generalizing frontier with
  | zero => rw [formsWithin, formsWithin, formOf_reverseAll, List.map_singleton]
  | succ steps ih =>
      rw [formsWithin, formsWithin, expand?_reverseAll, formOf_reverseAll, List.map_cons]
      cases expand? direction frontier with
      | none => rfl
      | some next => exact congrArg _ (ih next)

theorem forms_reverse (direction : Direction) (t : Tree) :
    t.reverse.forms direction.opposite = (t.forms direction).map List.reverse := by
  unfold forms
  rw [internalNodes_reverse]
  exact formsWithin_reverseAll direction t.internalNodes [t]

/-- **Rightmost derivations are leftmost derivations seen in a mirror.**  The forms of any tree from the
right are those of the reversed tree from the left, each read from the right; and the other way round. -/
theorem forms_mirror (t : Tree) :
    t.forms .rightmost = (t.reverse.forms .leftmost).map List.reverse ∧
      t.forms .leftmost = (t.reverse.forms .rightmost).map List.reverse := by
  have hright := forms_reverse .leftmost t.reverse
  have hleft := forms_reverse .rightmost t.reverse
  rw [reverse_reverse] at hright hleft
  exact ⟨hright, hleft⟩

/-- A node without children and a label that is a terminal make no difference. -/
example :
    let t : Tree := .node (.nonterminal "S") [.node (.terminal "+") [.leaf "a"], .node (.nonterminal "A") []]
    t.forms .rightmost =
        [[.nonterminal "S"], [.terminal "+", .nonterminal "A"], [.terminal "+"], [.terminal "a"]] ∧
      t.reverse.forms .leftmost =
        [[.nonterminal "S"], [.nonterminal "A", .terminal "+"], [.terminal "+"], [.terminal "a"]] := by
  decide

end Tree

end ParseForest
