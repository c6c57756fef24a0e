import ParseForest.Proofs.Arithmetic.Unambiguous
import ParseForest.Simplifier
import ParseForest.Tree.Reading

/-! # Parses of arithmetic expressions are the expressions

A derivation denotes the operator tree that it simplifies to, when that tree reads as the same tokens
(`Denotes`).  What each shape of a derivation denotes follows from what its parts denote
(`Denotes.operation`, `Denotes.single`, `Denotes.parenthesized`, `denotes_operand`).  With that, each
derivation denotes an expression (`IsDerivation.exists_denotes`), and each expression is denoted by a
derivation from every level whose operators it does not leave open (`IsExpression.exists_denotes`).

Since the grammar is unambiguous, expressions and parses correspond one to one
(`simplify_parse_exact`). -/

namespace ParseForest.Arithmetic

variable {upper lower level : Level} {among : List String} {t e left right : Tree} {operator : String}

/-! ### What a derivation denotes -/

/-- The tree is a derivation from a level, which simplifies to `e`, and `e` reads as its leaves. -/
structure Denotes (level : Level) (t e : Tree) : Prop where
  isDerivation : IsDerivation level t
  simplify_eq : Simplifier.standard.simplify t = e
  reading_eq : e.reading operators = t.leaves

theorem IsExpression.leaf_not_operator (he : IsExpression e) :
    ∀ text, e = .leaf text → text ∉ operators := by
  rintro text rfl
  cases he with
  | operand htext => exact not_operator_of_operand text htext

theorem Denotes.operation {l r : Tree} (hlayer : Layer upper among lower) (hop : operator ∈ among)
    (hl : Denotes upper left l) (hr : Denotes lower right r) :
    Denotes upper (.node (.nonterminal upper.name) [left, .leaf operator, right])
      (.node (.terminal operator) [l, r]) := by
  have hmem := hlayer.mem_operators operator hop
  refine ⟨.operation hlayer hop hl.isDerivation hr.isDerivation, ?_, ?_⟩
  · rw [← hl.simplify_eq, ← hr.simplify_eq]
    exact if_pos hmem
  · rw [leaves_operation, ← hl.reading_eq, ← hr.reading_eq]
    simp [Tree.reading, Tree.readingAll, hmem]

theorem Denotes.single (hlayer : Layer upper among lower) (h : Denotes lower t e) :
    Denotes upper (.node (.nonterminal upper.name) [t]) e := by
  refine ⟨.single hlayer h.isDerivation, h.simplify_eq, ?_⟩
  rw [leaves_single]
  exact h.reading_eq

theorem Denotes.parenthesized (h : Denotes .expression t e) (he : IsExpression e) :
    Denotes .factor (.node (.nonterminal "F") [.leaf "(", t, .leaf ")"])
      (.node (.nonterminal "F") [.leaf "(", e, .leaf ")"]) := by
  refine ⟨.parenthesized h.isDerivation, ?_, ?_⟩
  · rw [← h.simplify_eq] at he ⊢
    show Simplifier.standard.collapse (.nonterminal "F")
      [.leaf "(", Simplifier.standard.simplify t, .leaf ")"] = _
    cases hinner : Simplifier.standard.simplify t with
    | leaf text => exact if_neg (he.leaf_not_operator text hinner)
    | node label children => rfl
  · rw [leaves_enclosed, ← h.reading_eq]
    simp [Tree.reading, Tree.readingAll]

theorem denotes_operand {text : String} (htext : text ∈ operands) :
    Denotes .factor (.node (.nonterminal "F") [.leaf text]) (.leaf text) :=
  ⟨.operand htext, rfl, rfl⟩

/-! ### Derivations denote expressions -/

theorem isOperation_node {children : List Tree} :
    IsOperation among (.node (.terminal operator) children) ↔ operator ∈ among := Iff.rfl

theorem not_isOperation_nil : ¬IsOperation [] e := by
  cases e with
  | leaf text => exact id
  | node label children => cases label <;> simp [IsOperation]

theorem IsOperation.mono {more : List String} (h : IsOperation among e) (hsub : among ⊆ more) :
    IsOperation more e := by
  cases e with
  | leaf text => exact h
  | node label children =>
      cases label with
      | terminal operator => exact hsub h
      | nonterminal name => exact h

/-- An operation of a layer is an expression when its operands leave no operator open that the layer
does not allow there. -/
theorem Layer.isExpression (hlayer : Layer upper among lower) (hop : operator ∈ among)
    (hl : IsExpression left) (hleft : ¬IsOperation upper.above left) (hr : IsExpression right)
    (hright : ¬IsOperation lower.above right) :
    IsExpression (.node (.terminal operator) [left, right]) := by
  cases hlayer with
  | sums => exact .sum hop hl hr hright
  | products => exact .product hop hl hr hleft hright

/-- A derivation denotes an expression that is no operation of a layer above. -/
theorem IsDerivation.exists_denotes (h : IsDerivation level t) :
    ∃ e, Denotes level t e ∧ IsExpression e ∧ ¬IsOperation level.above e := by
  induction h with
  | operation hlayer hop _ _ ihl ihr =>
      obtain ⟨l, hdl, hl, hleft⟩ := ihl
      obtain ⟨r, hdr, hr, hright⟩ := ihr
      refine ⟨_, hdl.operation hlayer hop hdr, hlayer.isExpression hop hl hleft hr hright, ?_⟩
      rw [isOperation_node]
      exact hlayer.not_mem_above _ hop
  | single hlayer _ ih =>
      obtain ⟨e, hd, he, hnot⟩ := ih
      refine ⟨e, hd.single hlayer, he, fun hop => hnot (hop.mono ?_)⟩
      rw [hlayer.above_lower]
      exact List.subset_append_left _ _
  | parenthesized _ ih =>
      obtain ⟨e, hd, he, -⟩ := ih
      exact ⟨_, hd.parenthesized he, .parenthesized he, id⟩
  | operand htext => exact ⟨_, denotes_operand htext, .operand htext, id⟩

/-! ### Expressions are denoted -/

theorem Denotes.exists_of_factor (h : Denotes .factor t e) (level : Level) : ∃ s, Denotes level s e := by
  have hterm := h.single .products
  cases level with
  | expression => exact ⟨_, hterm.single .sums⟩
  | term => exact ⟨_, hterm⟩
  | factor => exact ⟨_, h⟩

/-- An expression is denoted from each level if it is no operation of a layer above. -/
theorem IsExpression.exists_denotes (he : IsExpression e) :
    ∀ level : Level, ¬IsOperation level.above e → ∃ t, Denotes level t e := by
  induction he with
  | operand htext => exact fun level _ => (denotes_operand htext).exists_of_factor level
  | parenthesized he ih =>
      intro level _
      obtain ⟨t, ht⟩ := ih .expression not_isOperation_nil
      exact (ht.parenthesized he).exists_of_factor level
  | sum hop hl hr hright ihl ihr =>
      intro level hnot
      obtain ⟨l, hdl⟩ := ihl .expression not_isOperation_nil
      obtain ⟨r, hdr⟩ := ihr .term hright
      cases level with
      | expression => exact ⟨_, hdl.operation .sums hop hdr⟩
      | term => exact absurd hop hnot
      | factor => exact absurd (List.subset_append_left additive multiplicative hop) hnot
  | product hop hl hr hleft hright ihl ihr =>
      intro level hnot
      obtain ⟨l, hdl⟩ := ihl .term hleft
      obtain ⟨r, hdr⟩ := ihr .factor hright
      have hterm := hdl.operation .products hop hdr
      cases level with
      | expression => exact ⟨_, hterm.single .sums⟩
      | term => exact ⟨_, hterm⟩
      | factor => exact absurd (List.subset_append_right additive multiplicative hop) hnot

/-! ### Parses and expressions -/

/-- **The simplified parses are the expressions.**  Every tree of a parse simplifies to an expression
that reads as the tokens; and for every expression, a parse of what it reads as has exactly one tree,
which simplifies to the expression. -/
theorem simplify_parse_exact :
    (∀ (tokens : List String) (direction : Direction), ∀ t ∈ parse grammar tokens direction,
      IsExpression (Simplifier.standard.simplify t) ∧
        (Simplifier.standard.simplify t).reading operators = tokens) ∧
    ∀ e : Tree, IsExpression e → ∀ direction : Direction,
      ∃ t, parse grammar (e.reading operators) direction = [t] ∧
        Simplifier.standard.simplify t = e := by
  have hgrammar : grammar = restarted .expression := rfl
  rw [hgrammar]
  constructor
  · intro tokens direction t ht
    obtain ⟨hd, rfl⟩ := mem_parse_iff_isDerivation.mp ht
    obtain ⟨e, hdenotes, he, -⟩ := hd.exists_denotes
    rw [hdenotes.simplify_eq]
    exact ⟨he, hdenotes.reading_eq⟩
  · intro e he direction
    obtain ⟨t, ht⟩ := he.exists_denotes .expression not_isOperation_nil
    rw [ht.reading_eq]
    exact ⟨t, parse_eq_singleton ht.isDerivation direction, ht.simplify_eq⟩

/-- The operator tree of a difference, with a product of a sum in parentheses on its right. -/
def differenceTree : Tree :=
  .node (.terminal "-") [.leaf "a", .node (.terminal "*")
    [.node (.nonterminal "F") [.leaf "(", .node (.terminal "+") [.leaf "b", .leaf "c"], .leaf ")"],
      .leaf "d"]]

/-- The difference is an expression; its tokens have one parse, which simplifies to it. -/
theorem simplify_parse_differenceTree :
    IsExpression differenceTree ∧ ∃ t,
      t ∈ parse grammar ["a", "-", "(", "b", "+", "c", ")", "*", "d"] .rightmost ∧
        parse grammar ["a", "-", "(", "b", "+", "c", ")", "*", "d"] .rightmost = [t] ∧
        IsExpression (Simplifier.standard.simplify t) ∧
        Simplifier.standard.simplify t = differenceTree := by
  have hoperand : ∀ text ∈ ["a", "b", "c", "d"], IsExpression (.leaf text) := by
    intro text htext
    refine .operand ?_
    revert text
    decide
  have hsum : IsExpression (.node (.terminal "+") [.leaf "b", .leaf "c"]) :=
    .sum (by decide) (hoperand "b" (by decide)) (hoperand "c" (by decide)) id
  have hproduct : IsExpression (.node (.terminal "*") [.node (.nonterminal "F") [.leaf "(",
      .node (.terminal "+") [.leaf "b", .leaf "c"], .leaf ")"], .leaf "d"]) :=
    .product (by decide) (.parenthesized hsum) (hoperand "d" (by decide)) id id
  have he : IsExpression differenceTree := .sum (by decide) (hoperand "a" (by decide)) hproduct
    (by simp [IsOperation, additive])
  obtain ⟨hparsed, hdenoted⟩ := simplify_parse_exact
  obtain ⟨t, hparse, hsimplify⟩ := hdenoted differenceTree he .rightmost
  have hmem : t ∈ parse grammar (differenceTree.reading operators) .rightmost := by simp [hparse]
  exact ⟨he, t, hmem, hparse, (hparsed _ _ t hmem).1, hsimplify⟩

end ParseForest.Arithmetic
