import ParseForest.Proofs.Chart.Forest
import ParseForest.Proofs.Derivation.Order
import ParseForest.Proofs.Grammar.Construction

/-! # The order of the forest

The trees of a forest are listed in strictly increasing order: by the place of the alternative at
the root, then by the boundaries between the children, then by the children from the left
(`treesWithin_pairwise`).  A tree determines its alternative, since none is repeated, and its
boundaries, so trees from different expansions compare like these (`precedes_of_before`); trees from
one expansion compare like the combinations of their children (`precedes_of_firstDiffer`).  No tree
precedes itself, so none is listed twice, and no other list of the same trees is increasing
(`eq_trees_of_pairwise`). -/

namespace ParseForest

/-! ### Combinations -/

theorem combinations_pairwise {α : Type} {R : α → α → Prop} {lists : List (List α)}
    (h : ∀ list ∈ lists, list.Pairwise R) : (combinations lists).Pairwise (FirstDiffer R) := by
  induction lists with
  | nil => exact List.pairwise_singleton _ _
  | cons choices rest ih =>
      obtain ⟨hchoices, hrest⟩ := List.forall_mem_cons.mp h
      rw [combinations, List.pairwise_flatMap]
      constructor
      · intro choice _
        rw [List.pairwise_map]
        exact (ih hrest).imp fun hd => hd.cons choice
      · refine hchoices.imp fun hab as has bs hbs => ?_
        obtain ⟨as', _, rfl⟩ := List.mem_map.mp has
        obtain ⟨bs', _, rfl⟩ := List.mem_map.mp hbs
        exact .head hab

namespace Chart

variable {g : Grammar} {tokens : List String}

/-! ### The forest -/

theorem choices_pairwise {R : Tree → Tree → Prop} {chart : Chart} {height : Nat}
    (h : ∀ path name span, (chart.treesWithin height path name span).Pairwise R)
    (path : List (String × Span)) (part : Symbol × Span) :
    (chart.choices height path part).Pairwise R := by
  unfold choices
  split
  · exact List.pairwise_singleton _ _
  · split
    · exact List.Pairwise.nil
    · exact h _ _ _

section

variable {name : String} {span : Span} {path : List (String × Span)} {height : Nat}

theorem children_of_mem {expansion : Expansion} {children : List Tree} (hg : g.WellFormed)
    (he : expansion ∈ (build g tokens).expansions name span)
    (hc : children ∈ combinations (((build g tokens).parts name expansion).map
      ((build g tokens).choices height path))) :
    Tree.alternativePlace g name children = expansion.alternative ∧
      Tree.boundaries span.start children = expansion.boundaries := by
  obtain ⟨symbols, hplace, -, rest, hb, hfit⟩ := (mem_expansions_iff hg.names_nodup).mp he
  obtain ⟨place, boundaries⟩ := expansion
  simp only at hplace hb
  subst hb
  rw [parts_build hplace, mem_combinations_iff (mem_treesWithin_iff hg.names_nodup height) hfit] at hc
  obtain ⟨rfl, hbound, -⟩ := hc
  exact ⟨Tree.alternativePlace_eq (Grammar.alternatives_nodup hg name) hplace, hbound⟩

/-- Nodes over children from one expansion compare like the children. -/
theorem precedes_of_firstDiffer {expansion : Expansion} {ss ts : List Tree} (hg : g.WellFormed)
    (he : expansion ∈ (build g tokens).expansions name span)
    (hss : ss ∈ combinations (((build g tokens).parts name expansion).map
      ((build g tokens).choices height path)))
    (hts : ts ∈ combinations (((build g tokens).parts name expansion).map
      ((build g tokens).choices height path)))
    (h : FirstDiffer (Tree.Precedes g) ss ts) :
    Tree.Precedes g (.node (.nonterminal name) ss) (.node (.nonterminal name) ts) := by
  obtain ⟨hplace, hb⟩ := children_of_mem hg he hss
  obtain ⟨hplace', hb'⟩ := children_of_mem hg he hts
  have hbound := (Tree.boundaries_eq_iff span.start).mpr (hb.trans hb'.symm)
  exact Tree.ChildrenPrecede.precedes (Or.inr ⟨hplace.trans hplace'.symm, Or.inr ⟨hbound, h⟩⟩)

/-- Nodes over children from two expansions compare like the expansions. -/
theorem precedes_of_before {a b : Expansion} {ss ts : List Tree} (hg : g.WellFormed)
    (ha : a ∈ (build g tokens).expansions name span)
    (hb : b ∈ (build g tokens).expansions name span)
    (hss : ss ∈ combinations (((build g tokens).parts name a).map
      ((build g tokens).choices height path)))
    (hts : ts ∈ combinations (((build g tokens).parts name b).map
      ((build g tokens).choices height path)))
    (h : a.Before b) :
    Tree.Precedes g (.node (.nonterminal name) ss) (.node (.nonterminal name) ts) := by
  obtain ⟨hplace, hbound⟩ := children_of_mem hg ha hss
  obtain ⟨hplace', hbound'⟩ := children_of_mem hg hb hts
  rcases h with hlt | ⟨heq, hlt⟩
  · exact .alternative (by rw [hplace, hplace']; exact hlt)
  · refine .boundary (by rw [hplace, hplace', heq]) ?_
    rw [Tree.boundaries_lt_iff span.start, hbound, hbound']
    exact hlt

end

theorem treesWithin_pairwise (hg : g.WellFormed) (height : Nat) (path : List (String × Span))
    (name : String) (span : Span) :
    ((build g tokens).treesWithin height path name span).Pairwise (Tree.Precedes g) := by
  induction height generalizing path name span with
  | zero => exact List.Pairwise.nil
  | succ height ih =>
      rw [treesWithin_succ, List.pairwise_flatMap]
      constructor
      · intro expansion he
        rw [List.pairwise_map]
        have hlists := combinations_pairwise (List.forall_mem_map.mpr
          fun part (_ : part ∈ (build g tokens).parts name expansion) =>
            choices_pairwise ih ((name, span) :: path) part)
        refine (List.Pairwise.and_mem.mp hlists).imp ?_
        rintro ss ts ⟨hss, hts, h⟩
        exact precedes_of_firstDiffer hg he hss hts h
      · have hbefore : ((build g tokens).expansions name span).Pairwise Expansion.Before := by
          rw [expansions_build hg.names_nodup]
          exact expansionsBy_pairwise _ _ _
        refine (List.Pairwise.and_mem.mp hbefore).imp ?_
        rintro a b ⟨ha, hb, hlt⟩ s hs t ht
        obtain ⟨ss, hss, rfl⟩ := List.mem_map.mp hs
        obtain ⟨ts, hts, rfl⟩ := List.mem_map.mp ht
        exact precedes_of_before hg ha hb hss hts hlt

theorem trees_pairwise (hg : g.WellFormed) (tokens : List String) :
    (build g tokens).trees.Pairwise (Tree.Precedes g) := by
  by_cases hne : tokens = []
  · subst hne
    rw [trees_nil]
    split
    · exact List.pairwise_singleton _ _
    · exact List.Pairwise.nil
  · rw [trees_eq_treesWithin hne]
    exact treesWithin_pairwise hg _ _ _ _

theorem trees_nodup (hg : g.WellFormed) (tokens : List String) : (build g tokens).trees.Nodup :=
  (trees_pairwise hg tokens).imp Tree.Precedes.ne

/-- The order leaves no choice: only the forest lists the derivations without cycles increasingly. -/
theorem eq_trees_of_pairwise (hg : g.WellFormed) (hne : tokens ≠ []) {ts : List Tree}
    (hincreasing : ts.Pairwise (Tree.Precedes g))
    (hmem : ∀ t, t ∈ ts ↔ t.root = .nonterminal g.start ∧ t.Derives g.ExpandsProperly ∧
      t.leaves = tokens ∧ t.CycleFree) :
    ts = (build g tokens).trees := by
  have hperm : ts.Perm (build g tokens).trees := by
    refine (List.perm_ext_iff_of_nodup (hincreasing.imp Tree.Precedes.ne)
      (trees_nodup hg tokens)).mpr fun t => ?_
    rw [hmem t, mem_trees_iff hg.names_nodup hne]
  exact hperm.eq_of_pairwise (fun _ _ _ _ hst hts => absurd hts hst.asymm) hincreasing
    (trees_pairwise hg tokens)

/-- Beyond the bound on the height nothing is added to the forest, and its order stays. -/
theorem treesWithin_eq_trees (hg : g.WellFormed) (hne : tokens ≠ []) {height : Nat}
    (hle : g.rules.length * tokens.length ≤ height) :
    (build g tokens).treesWithin height [] g.start ⟨0, tokens.length⟩ = (build g tokens).trees :=
  eq_trees_of_pairwise hg hne (treesWithin_pairwise hg height [] g.start _)
    fun _ => mem_treesWithin_whole_iff hg.names_nodup hne hle

/-- **The order of derivations.**  The forest is strictly increasing, so no tree occurs twice, whatever
was repeated in the rules that the grammar was built from.  From the left a parse is this increasing
list, and from the right the same list reversed, which is strictly decreasing. -/
theorem parse_increasing (g : Grammar) (hg : g.WellFormed) (tokens : List String) :
    (build g tokens).trees.Pairwise (Tree.Precedes g) ∧
    (build g tokens).trees.Nodup ∧
    parse g tokens .leftmost = (build g tokens).trees ∧
    parse g tokens .rightmost = (build g tokens).trees.reverse ∧
    (parse g tokens .rightmost).Pairwise (fun s t => Tree.Precedes g t s) ∧
    ∀ (start : Symbol) (entries : List RuleEntry) (built : Grammar),
      Grammar.ofRules start entries = .ok built → (build built tokens).trees.Nodup := by
  have hincreasing := trees_pairwise hg tokens
  refine ⟨hincreasing, trees_nodup hg tokens, rfl, rfl, List.pairwise_reverse.mpr hincreasing, ?_⟩
  intro start entries built hbuilt
  exact trees_nodup (Grammar.wellFormed_of_ofRules hbuilt) tokens

/-- Three tokens have two derivations, listed in order from the left and against it from the right. -/
theorem parse_loopGrammar_increasing :
    loopGrammar.WellFormed ∧ (build loopGrammar ["a", "a", "a"]).trees.length = 2 ∧
      (build loopGrammar ["a", "a", "a"]).trees.Pairwise (Tree.Precedes loopGrammar) ∧
      (parse loopGrammar ["a", "a", "a"] .rightmost).Pairwise
        (fun s t => Tree.Precedes loopGrammar t s) := by
  have hg : loopGrammar.WellFormed := by decide
  obtain ⟨hincreasing, -, -, -, hdecreasing, -⟩ := parse_increasing loopGrammar hg ["a", "a", "a"]
  exact ⟨hg, by decide, hincreasing, hdecreasing⟩

end Chart

end ParseForest
