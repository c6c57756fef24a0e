import ParseForest.Proofs.Simplifier.Normal
import ParseForest.Simplifier.Normal

/-! # Simplifying in stages

A simplifier makes the same of a node and of what the node is contracted to
(`Contracts.simplify_eq`).  So it makes the same of a tree in which some nodes are contracted already,
be it everywhere by a narrower simplifier (`Within.simplify_simplify`), or in one part of the tree
(`simplify_modifyAt`).  In the other order a narrower simplifier finds nothing left to contract, as a
tree that is normal for the wider one is normal for it too (`Within.isNormal`). -/

namespace ParseForest.Simplifier

variable {s a b : Simplifier} {t u : Tree}

/-! ### One contraction -/

theorem rebuild_terminal (s : Simplifier) (text : String) (children : List Tree) :
    s.rebuild (.terminal text) children = .node (.terminal text) children :=
  rebuild_of_not_reducible (not_reducible_terminal text)

/-- The operands are simplified alike before and after a contraction, and the simplified node still has
the same contraction. -/
theorem Contracts.simplify_eq (h : s.Contracts t u) : s.simplify u = s.simplify t := by
  cases h with
  | only _ hlabel =>
      have hafter := Contracts.only (s.simplify u) hlabel
      rw [simplify_node, List.map_singleton, hafter.rebuild_eq]
  | operation left right hlabel hoperator =>
      have hafter := Contracts.operation (s.simplify left) (s.simplify right) hlabel hoperator
      simp only [simplify_node, List.map_cons, List.map_nil, simplify_leaf, rebuild_terminal,
        hafter.rebuild_eq]

/-! ### Narrower and wider simplifiers -/

theorem Within.refl (s : Simplifier) : s.Within s :=
  ⟨fun _ h => h, fun _ h => h⟩

theorem within_anyNonterminal {operators : List String} (h : s.operators ⊆ operators) :
    s.Within ⟨operators, .anyNonterminal⟩ := by
  refine ⟨fun _ hmem => h hmem, fun label hlabel => ?_⟩
  cases label with
  | terminal text => simp [Structural.holds] at hlabel
  | nonterminal name => rfl

theorem forGrammar_within_standard (g : Grammar) : (forGrammar g).Within standard :=
  within_anyNonterminal (List.Subset.refl _)

theorem Within.withOperators (h : a.Within b) {operators more : List String} (hsub : operators ⊆ more) :
    (a.withOperators operators).Within (b.withOperators more) :=
  ⟨fun _ hmem => hsub hmem, h.2⟩

theorem Within.contracts (h : a.Within b) (hc : a.Contracts t u) : b.Contracts t u := by
  cases hc with
  | only _ hlabel => exact .only _ (h.2 _ hlabel)
  | operation _ _ hlabel hoperator => exact .operation _ _ (h.2 _ hlabel) (h.1 _ hoperator)

theorem Within.isNormal (h : a.Within b) (ht : b.IsNormal t) : a.IsNormal t := by
  intro part hpart hreducible
  obtain ⟨u, hu⟩ := reducible_iff.mp hreducible
  exact ht part hpart (reducible_iff.mpr ⟨u, h.contracts hu⟩)

/-- The wider simplifier makes the same of a node before and after the narrower one has rebuilt it. -/
theorem Within.simplify_rebuild (h : a.Within b) (label : Symbol) (children : List Tree) :
    b.simplify (a.rebuild label children) = b.simplify (.node label children) := by
  rcases rebuild_cases a label children with hc | ⟨-, heq⟩
  · exact (h.contracts hc).simplify_eq
  · rw [heq]

theorem Within.simplify_simplify (h : a.Within b) (t : Tree) : b.simplify (a.simplify t) = b.simplify t := by
  induction t using Tree.induction with
  | leaf text => rfl
  | node label children ih =>
      calc b.simplify (a.simplify (.node label children))
          = b.simplify (.node label (children.map a.simplify)) := by
            rw [simplify_node, h.simplify_rebuild]
        _ = b.rebuild label (children.map fun child => b.simplify (a.simplify child)) := by
            rw [simplify_node, List.map_map]
            rfl
        _ = b.simplify (.node label children) := by rw [List.map_congr_left ih, simplify_node]

/-- **Wider simplifiers absorb narrower ones.**  Where each operator and each structural label of the one
is one of the other, it makes no difference to the wider simplifier whether the narrower one goes first,
and none whether it comes after. -/
theorem simplify_absorbs (a b : Simplifier) (h : a.Within b) (t : Tree) :
    b.simplify (a.simplify t) = b.simplify t ∧ a.simplify (b.simplify t) = b.simplify t :=
  ⟨h.simplify_simplify t, simplify_of_isNormal (h.isNormal (isNormal_simplify b t))⟩

/-- The labels of the arithmetic grammar, and multiplication alone. -/
def productsOnly : Simplifier :=
  (forGrammar Arithmetic.grammar).withOperators ["*"]

/-- A sum of `1` and a product, under a label of its own and with a nonterminal for its sign. -/
def signedSum : Tree :=
  .node (.nonterminal "Sum")
    [.node (.nonterminal "F") [.leaf "1"],
      .node (.nonterminal "Sign") [.leaf "+"],
      .node (.nonterminal "T") [.node (.nonterminal "T") [.leaf "2"], .leaf "*",
        .node (.nonterminal "F") [.leaf "3"]]]

/-- What the narrower simplifier does to the product, the wider one would have done, and the sum is left
to it. -/
theorem simplify_absorbs_signedSum :
    productsOnly.Within standard ∧
      productsOnly.simplify signedSum ≠ signedSum ∧
      productsOnly.simplify signedSum ≠ standard.simplify signedSum ∧
      standard.simplify (productsOnly.simplify signedSum) = standard.simplify signedSum ∧
      productsOnly.simplify (standard.simplify signedSum) = standard.simplify signedSum := by
  have hwithin : productsOnly.Within (standard.withOperators Arithmetic.operators) :=
    (forGrammar_within_standard Arithmetic.grammar).withOperators (by decide)
  obtain ⟨hfirst, hafter⟩ := simplify_absorbs productsOnly standard hwithin signedSum
  exact ⟨hwithin, by decide, by decide, hfirst, hafter⟩

/-! ### Parts of a tree -/

theorem simplify_modifyAt {f : Tree → Tree} (hf : ∀ u, s.simplify (f u) = s.simplify u)
    (position : List Nat) (t : Tree) : s.simplify (Tree.modifyAt f position t) = s.simplify t := by
  induction position generalizing t with
  | nil => exact hf t
  | cons i position ih =>
      cases t with
      | leaf text => rfl
      | node label children =>
          -- the child at `i` is the only one that changes, and it is simplified to the same
          have hchildren : (children.modify i (Tree.modifyAt f position)).map s.simplify =
              children.map s.simplify := by
            refine List.ext_getElem? fun j => ?_
            cases hj : children[j]? <;> by_cases hij : i = j <;> simp [hj, hij, ih]
          rw [Tree.modifyAt, simplify_node, hchildren, simplify_node]

/-- **Simplifying a part first does not change the whole.**  At each position of a tree the part that
stands there may be simplified before the tree is. -/
theorem simplify_part_first (s : Simplifier) (t : Tree) (position : List Nat) :
    s.simplify (Tree.modifyAt s.simplify position t) = s.simplify t :=
  simplify_modifyAt (Within.refl s).simplify_simplify position t

/-- The second operand is simplified where it stands. -/
example :
    Tree.modifyAt standard.simplify [1]
        (.node (.terminal "-") [.leaf "1", .node (.nonterminal "F") [.leaf "2"]]) =
      .node (.terminal "-") [.leaf "1", .leaf "2"] := by
  decide

end ParseForest.Simplifier
