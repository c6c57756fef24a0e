import ParseForest.Simplifier.Normal

/-! # Simplified trees are normal

A structural node gives way to its only child, or to a node of the operator between its two operands.
Such a step is a contraction (`Simplifier.Contracts`), and the nodes that have one are the reducible
ones (`reducible_iff`).  A node is rebuilt over simplified children by one contraction, or it stays
because there is none (`rebuild_cases`).

A contraction leaves nothing to reduce at the root: what takes the place of the node is a child, or a
node labelled with a terminal.  So one pass from the leaves up is enough (`isNormal_simplify`), and a
tree without reducible nodes goes through it unchanged (`simplify_of_isNormal`). -/

namespace ParseForest.Simplifier

variable {s : Simplifier} {label : Symbol} {children : List Tree} {t u : Tree}

/-! ### Contractions -/

/-- A structural node gives way to its only child, or to a node of the operator between its operands. -/
inductive Contracts (s : Simplifier) : Tree → Tree → Prop
  | only {label : Symbol} (only : Tree) :
      s.structural.holds label = true → Contracts s (.node label [only]) only
  | operation {label : Symbol} {operator : String} (left right : Tree) :
      s.structural.holds label = true → operator ∈ s.operators →
      Contracts s (.node label [left, .leaf operator, right]) (.node (.terminal operator) [left, right])

theorem reducible_iff : s.Reducible t ↔ ∃ u, s.Contracts t u := by
  constructor
  · intro h
    unfold Reducible at h
    split at h
    · exact ⟨_, .only _ h⟩
    · exact ⟨_, .operation _ _ h.1 h.2⟩
    · exact h.elim
  · rintro ⟨u, h⟩
    cases h with
    | only _ hlabel => exact hlabel
    | operation _ _ hlabel hoperator => exact ⟨hlabel, hoperator⟩

theorem not_reducible_leaf (text : String) : ¬s.Reducible (.leaf text) := id

theorem not_reducible_terminal (text : String) : ¬s.Reducible (.node (.terminal text) children) := by
  rw [reducible_iff]
  rintro ⟨u, h⟩
  cases h with
  | only _ hlabel => simp [Structural.holds] at hlabel
  | operation _ _ hlabel _ => simp [Structural.holds] at hlabel

/-! ### Rebuilding a node -/

theorem Contracts.rebuild_eq (h : s.Contracts (.node label children) u) :
    s.rebuild label children = u := by
  cases h with
  | only _ hlabel => simp [rebuild, collapse, hlabel]
  | operation _ _ hlabel hoperator => simp [rebuild, collapse, hlabel, hoperator]

theorem rebuild_of_not_reducible (h : ¬s.Reducible (.node label children)) :
    s.rebuild label children = .node label children := by
  by_cases hlabel : s.structural.holds label = true
  · rw [rebuild, if_pos hlabel]
    unfold collapse
    split
    next only => exact absurd hlabel h
    next left operator right => exact if_neg fun hoperator => h ⟨hlabel, hoperator⟩
    next => rfl
  · rw [rebuild, if_neg hlabel]

theorem rebuild_cases (s : Simplifier) (label : Symbol) (children : List Tree) :
    s.Contracts (.node label children) (s.rebuild label children) ∨
      ¬s.Reducible (.node label children) ∧ s.rebuild label children = .node label children := by
  by_cases h : s.Reducible (.node label children)
  · obtain ⟨u, hu⟩ := reducible_iff.mp h
    exact Or.inl (hu.rebuild_eq ▸ hu)
  · exact Or.inr ⟨h, rebuild_of_not_reducible h⟩

theorem simplify_leaf (s : Simplifier) (text : String) : s.simplify (.leaf text) = .leaf text := rfl

theorem simplify_node (s : Simplifier) (label : Symbol) (children : List Tree) :
    s.simplify (.node label children) = s.rebuild label (children.map s.simplify) := by
  rw [simplify, simplifyAll_eq]

/-! ### Normal trees -/

theorem isNormal_leaf (text : String) : s.IsNormal (.leaf text) := by
  simp [IsNormal, Tree.subtrees, not_reducible_leaf]

theorem isNormal_node :
    s.IsNormal (.node label children) ↔
      ¬s.Reducible (.node label children) ∧ ∀ child ∈ children, s.IsNormal child :=
  Tree.forall_mem_subtrees_node

/-- A contraction of a node over normal children leaves nothing to reduce. -/
theorem Contracts.isNormal (h : s.Contracts (.node label children) u)
    (hchildren : ∀ child ∈ children, s.IsNormal child) : s.IsNormal u := by
  cases h with
  | only => exact hchildren u (by simp)
  | operation left right =>
      -- the leaf of the operator has gone into the label, which is no structural one
      rw [isNormal_node]
      refine ⟨not_reducible_terminal _, ?_⟩
      simp only [List.forall_mem_cons] at hchildren ⊢
      obtain ⟨hleft, -, hright⟩ := hchildren
      exact ⟨hleft, hright⟩

theorem isNormal_rebuild (hchildren : ∀ child ∈ children, s.IsNormal child) :
    s.IsNormal (s.rebuild label children) := by
  rcases rebuild_cases s label children with h | ⟨hnot, heq⟩
  · exact h.isNormal hchildren
  · rw [heq, isNormal_node]
    exact ⟨hnot, hchildren⟩

theorem isNormal_simplify (s : Simplifier) (t : Tree) : s.IsNormal (s.simplify t) := by
  induction t using Tree.induction with
  | leaf text => exact isNormal_leaf text
  | node label children ih =>
      rw [simplify_node]
      exact isNormal_rebuild (List.forall_mem_map.mpr ih)

theorem simplify_of_isNormal (h : s.IsNormal t) : s.simplify t = t := by
  induction t using Tree.induction with
  | leaf text => rfl
  | node label children ih =>
      obtain ⟨hnot, hchildren⟩ := isNormal_node.mp h
      have hsame : children.map s.simplify = children := by
        rw [List.map_congr_left fun child hmem => ih child hmem (hchildren child hmem), List.map_id']
      rw [simplify_node, hsame, rebuild_of_not_reducible hnot]

/-- **Simplification reaches a normal form and stops there.**  Whatever the operators and the structural
labels are, no node of a simplified tree can be contracted, and the trees without such a node are the
ones that are left as they are. -/
theorem simplify_normal (s : Simplifier) (t : Tree) :
    s.IsNormal (s.simplify t) ∧ (s.simplify t = t ↔ s.IsNormal t) := by
  refine ⟨isNormal_simplify s t, fun h => ?_, simplify_of_isNormal⟩
  rw [← h]
  exact isNormal_simplify s t

end ParseForest.Simplifier
