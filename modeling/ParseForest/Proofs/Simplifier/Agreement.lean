import ParseForest.Proofs.Simplifier.Reading

/-! # Simplifiers that agree on the labels of a tree

A simplifier looks at a tree only through its operators and through the labels that it takes for
structural.  Two simplifiers with the same operators make the same of a tree if they agree on the labels
that occur in it (`simplify_congr`).

The labels that a parse puts on its trees are nonterminals with a rule (`Tree.Derives.exists_name`).
These are structural for the grammar's own simplifier as well as for the standard one, so the two make
the same of a parse, whatever the operators are (`forGrammar_simplify_parse`). -/

namespace ParseForest

variable {t : Tree} {label : Symbol}

theorem Tree.Derives.exists_name {g : Grammar} (h : t.Derives g.Expands) :
    ∀ u ∈ t.subtrees, u.label? = some label → ∃ name ∈ g.names, label = .nonterminal name := by
  intro u hu hlabel
  cases h.of_mem_subtrees u hu with
  | leaf text => exact absurd hlabel.symm (Option.some_ne_none label)
  | node name children hexpands =>
      exact ⟨name, Grammar.mem_names_of_expands hexpands, (Option.some.inj hlabel).symm⟩

namespace Simplifier

variable {a b : Simplifier} {children : List Tree}

theorem rebuild_congr (hoperators : SameMembers a.operators b.operators)
    (hlabel : a.structural.holds label = b.structural.holds label) :
    a.rebuild label children = b.rebuild label children := by
  have hcollapse : a.collapse label children = b.collapse label children := by
    unfold collapse
    split
    · rfl
    · rename_i left operator right
      exact if_congr ⟨hoperators.1 operator, hoperators.2 operator⟩ rfl rfl
    · rfl
  rw [rebuild, rebuild, hlabel, hcollapse]

/-- Only the labels in the tree matter, and the operators as a set. -/
theorem simplify_congr (hoperators : SameMembers a.operators b.operators)
    (hlabels : ∀ u ∈ t.subtrees, ∀ label, u.label? = some label →
      a.structural.holds label = b.structural.holds label) :
    a.simplify t = b.simplify t := by
  induction t using Tree.induction with
  | leaf text => rfl
  | node label children ih =>
      obtain ⟨hhere, hbelow⟩ := Tree.forall_mem_subtrees_node.mp hlabels
      have hchildren : children.map a.simplify = children.map b.simplify :=
        List.map_congr_left fun child hmem => ih child hmem (hbelow child hmem)
      rw [simplify_node, simplify_node, hchildren, rebuild_congr hoperators (hhere label rfl)]

theorem Structural.Same.holds_eq {p q : Structural} (h : p.Same q) (label : Symbol) :
    p.holds label = q.holds label := by
  cases label with
  | terminal text => rfl
  | nonterminal name =>
      cases p with
      | anyNonterminal =>
          cases q with
          | anyNonterminal => rfl
          | only names => exact h.elim
      | only names =>
          cases q with
          | anyNonterminal => exact h.elim
          | only others => exact decide_eq_decide.mpr ⟨h.1 name, h.2 name⟩

theorem Same.simplify_eq (h : a.Same b) (t : Tree) : a.simplify t = b.simplify t :=
  simplify_congr h.1 fun _ _ label _ => Structural.Same.holds_eq h.2 label

theorem holds_forGrammar {g : Grammar} {name : String} (h : name ∈ g.names) :
    (forGrammar g).structural.holds (.nonterminal name) =
      standard.structural.holds (.nonterminal name) :=
  decide_eq_true h

/-- **The grammar's simplifier and the standard one agree on the grammar's parses**, with the operators
of arithmetic as with any others. -/
theorem forGrammar_simplify_parse (g : Grammar) (hg : g.WellFormed) (tokens : List String)
    (direction : Direction) (t : Tree) (ht : t ∈ parse g tokens direction) :
    (forGrammar g).simplify t = standard.simplify t ∧
      ∀ operators : List String,
        ((forGrammar g).withOperators operators).simplify t =
          (standard.withOperators operators).simplify t := by
  obtain ⟨-, hderives, -⟩ := Chart.derives_of_mem_parse hg.names_nodup ht
  have hlabels : ∀ u ∈ t.subtrees, ∀ label, u.label? = some label →
      (forGrammar g).structural.holds label = standard.structural.holds label := by
    intro u hu label hlabel
    obtain ⟨name, hname, rfl⟩ := hderives.exists_name u hu hlabel
    exact holds_forGrammar hname
  have hrefl : ∀ operators, SameMembers operators operators := fun _ => ⟨fun _ => id, fun _ => id⟩
  exact ⟨simplify_congr (hrefl _) hlabels, fun operators => simplify_congr (hrefl operators) hlabels⟩

/-- The parse of a sum is simplified alike, as a sum and with an operator that it does not have.  Beside
the parse, a wrapper of its own around it is a nonterminal to the standard simplifier alone. -/
theorem forGrammar_simplify_sumTree :
    Chart.sumGrammar.WellFormed ∧ sumTree ∈ parse Chart.sumGrammar ["a", "+", "b"] .leftmost ∧
      (forGrammar Chart.sumGrammar).simplify sumTree = standard.simplify sumTree ∧
      ((forGrammar Chart.sumGrammar).withOperators ["*"]).simplify sumTree =
        (standard.withOperators ["*"]).simplify sumTree ∧
      (forGrammar Chart.sumGrammar).simplify (.node (.nonterminal "Wrapper") [sumTree]) ≠
        standard.simplify (.node (.nonterminal "Wrapper") [sumTree]) := by
  have hg : Chart.sumGrammar.WellFormed := by decide
  have hmem : sumTree ∈ parse Chart.sumGrammar ["a", "+", "b"] .leftmost := by decide
  obtain ⟨harithmetic, hothers⟩ := forGrammar_simplify_parse Chart.sumGrammar hg _ _ sumTree hmem
  exact ⟨hg, hmem, harithmetic, hothers ["*"], by decide⟩

end Simplifier

end ParseForest
