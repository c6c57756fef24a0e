import ParseForest.Chart.Recursion
import ParseForest.Proofs.Chart.Boundaries
import ParseForest.Proofs.Chart.Order
import ParseForest.Proofs.Derivation.Expansion
import ParseForest.Proofs.Derivation.Size

/-! # The recursion behind the forest ends

A call of the recursion needs others over a shorter span, or over the same span for a nonterminal that is
not on the path yet.  So how deep it can still go (`depthLeft`) gets less with each call
(`depthLeft_lt`), and every call has its trees (`lists_treesWithin`), no others (`Lists.unique`).  From
the start symbol over the whole input these are the forest (`lists_trees`): the bound on the height
that it is computed with cuts nothing off.

The trees are derivations without cycles, so they are small, and so is what is listed of them
(`forest_terminates`). -/

namespace ParseForest.Chart

variable {g : Grammar} {tokens : List String} {path : List (String × Span)} {name child : String}
  {span part : Span}

/-! ### One call -/

theorem nodesOver_congr {chart : Chart} {below below' : String → Span → List Tree}
    (h : ∀ child part, chart.Needs path name span child part → below child part = below' child part) :
    chart.nodesOver path below name span = chart.nodesOver path below' name span := by
  refine List.flatMap_congr fun expansion hexpansion => ?_
  have hparts : ∀ pair ∈ chart.parts name expansion,
      partTrees ((name, span) :: path) below pair = partTrees ((name, span) :: path) below' pair := by
    rintro ⟨symbol, part⟩ hpair
    cases symbol with
    | terminal text => rfl
    | nonterminal child =>
        unfold partTrees
        simp only
        split
        · rfl
        · rename_i hnot
          exact h child part ⟨expansion, hexpansion, hpair, mt List.contains_iff_mem.mpr hnot⟩
  rw [List.map_congr_left hparts]

theorem Lists.unique {chart : Chart} {listed other : List Tree}
    (h : chart.Lists path name span listed) (h' : chart.Lists path name span other) :
    listed = other := by
  induction h generalizing other with
  | node below _ ih =>
      cases h' with
      | node below' hbelow' =>
          exact nodesOver_congr fun child part hneeds => ih child part hneeds (hbelow' child part hneeds)

theorem partTrees_treesWithin (chart : Chart) (height : Nat) (path : List (String × Span)) :
    partTrees path (chart.treesWithin height path) = chart.choices height path := by
  funext ⟨symbol, part⟩
  cases symbol with
  | terminal text => rfl
  | nonterminal child => simp only [partTrees, choices, List.contains_iff_mem]

theorem treesWithin_succ_eq_nodesOver (chart : Chart) (height : Nat) (path : List (String × Span))
    (name : String) (span : Span) :
    chart.treesWithin (height + 1) path name span =
      chart.nodesOver path (chart.treesWithin height ((name, span) :: path)) name span := by
  rw [treesWithin_succ, nodesOver, partTrees_treesWithin]

/-! ### How deep the recursion goes -/

theorem Needs.within (hg : g.WellFormed) (h : (build g tokens).Needs path name span child part) :
    child ∈ g.names ∧ part.Within span.start span.stop ∧ (child, part) ∉ (name, span) :: path := by
  obtain ⟨expansion, hexpansion, hpart, hnot⟩ := h
  obtain ⟨symbols, hplace, -, hsplit⟩ := (mem_expansions_iff hg.names_nodup).mp hexpansion
  rw [parts_build hplace] at hpart
  obtain ⟨hwithin, -⟩ := hsplit.forall_mem_zip expansion.alternative _ hpart
  have hchild := hg.mem_names_of_expands (List.mem_of_getElem? hplace) (List.of_mem_zip hpart).1
  exact ⟨hchild, hwithin, hnot⟩

/-- How many calls, each needed by the one before, can follow a call: one for each nonterminal over the
same span that is not on the path, and one for each nonterminal and each shorter length. -/
def depthLeft (g : Grammar) (path : List (String × Span)) (name : String) (span : Span) : Nat :=
  g.rules.length * (span.length - 1) +
    (Tree.freeNames g (symbolPairs ((name, span) :: path)) span).length

theorem depthLeft_lt_mul (hname : name ∈ g.names) (hnot : (name, span) ∉ path)
    (hpos : 0 < span.length) : depthLeft g path name span < g.rules.length * span.length := by
  have hpath : symbolPairs ((name, span) :: path) = (.nonterminal name, span) :: symbolPairs path := rfl
  have hfree := Tree.length_freeNames_lt hname (mt mem_symbolPairs.mp hnot)
  have hall := Tree.length_freeNames_le g (symbolPairs path) span
  have hlevels : g.rules.length * span.length =
      g.rules.length * (span.length - 1) + g.rules.length := by
    rw [← Nat.mul_succ, Nat.succ_eq_add_one, Nat.sub_add_cancel hpos]
  rw [depthLeft, hpath]
  omega

/-- Each call that is needed leaves less: over the same span a name less is free, and over a shorter one
there is a length less. -/
theorem depthLeft_lt (hg : g.WellFormed) (h : (build g tokens).Needs path name span child part) :
    depthLeft g ((name, span) :: path) child part < depthLeft g path name span := by
  obtain ⟨hchild, hwithin, hnot⟩ := h.within hg
  by_cases hpart : part = span
  · subst hpart
    exact Nat.add_lt_add_left (Tree.length_freeNames_lt hchild (mt mem_symbolPairs.mp hnot)) _
  · have hpos : 0 < part.length := Nat.sub_pos_of_lt hwithin.2.1
    have hlength := hwithin.length_lt hpart
    calc depthLeft g ((name, span) :: path) child part
        < g.rules.length * part.length := depthLeft_lt_mul hchild hnot hpos
      _ ≤ g.rules.length * (span.length - 1) := Nat.mul_le_mul_left _ (by omega)
      _ ≤ depthLeft g path name span := Nat.le_add_right _ _

/-! ### The end of the recursion -/

/-- A bound on the height that is not reached cuts nothing off. -/
theorem lists_treesWithin (hg : g.WellFormed) {height : Nat} (h : depthLeft g path name span < height) :
    (build g tokens).Lists path name span ((build g tokens).treesWithin height path name span) := by
  induction height generalizing path name span with
  | zero => exact absurd h (Nat.not_lt_zero _)
  | succ height ih =>
      rw [treesWithin_succ_eq_nodesOver]
      refine .node _ fun child part hneeds => ih ?_
      have hless := depthLeft_lt hg hneeds
      omega

/-- The forest is what the recursion lists for the start symbol over the whole input. -/
theorem lists_trees (hg : g.WellFormed) (hne : tokens ≠ []) :
    (build g tokens).Lists [] g.start ⟨0, tokens.length⟩ (build g tokens).trees := by
  rw [trees_eq_treesWithin hne]
  exact lists_treesWithin hg
    (depthLeft_lt_mul hg.start_mem List.not_mem_nil (List.length_pos_iff.mpr hne))

/-- The trees of a call are derivations without cycles of some of the tokens, so they are small. -/
theorem Lists.small (hg : g.WellFormed) {listed : List Tree}
    (h : (build g tokens).Lists path name span listed) (hnot : (name, span) ∉ path) :
    ∀ t ∈ listed, t.height ≤ g.rules.length * tokens.length ∧
      t.internalNodes ≤ g.rules.length * (2 * tokens.length - 1) := by
  obtain rfl := h.unique (lists_treesWithin hg (Nat.lt_succ_self _))
  intro t ht
  obtain ⟨-, -, hd, -, ha⟩ := (mem_treesWithin_iff hg.names_nodup _ path name span t hnot).mp ht
  have hleaves : t.leaves.length ≤ tokens.length := Nat.le_trans (Nat.le_add_left _ _) hd.stop_le
  constructor
  · calc t.height
        ≤ g.rules.length * t.leaves.length := Tree.height_le_of_avoids hd.derives ha
      _ ≤ g.rules.length * tokens.length := Nat.mul_le_mul_left _ hleaves
  · calc t.internalNodes
        ≤ g.rules.length * (2 * t.leaves.length - 1) := Tree.internalNodes_le_of_avoids hd.derives ha
      _ ≤ g.rules.length * (2 * tokens.length - 1) := Nat.mul_le_mul_left _ (by omega)

/-- **Materialization ends, and trees stay small.**  Every call of the recursion comes to an end, with one
list of trees; for the start symbol over a whole input that is not empty, these are the forest.  With `N`
nonterminals and `n` tokens, no tree of any call is higher than `N * n` or has more than `N * (2 * n - 1)`
nodes, and a tree of a parse has at most as many phrases, and in either direction at most one form more. -/
theorem forest_terminates (g : Grammar) (hg : g.WellFormed) (tokens : List String) (hne : tokens ≠ []) :
    (∀ (path : List (String × Span)) (name : String) (span : Span),
      ∃! listed, (build g tokens).Lists path name span listed) ∧
    (build g tokens).Lists [] g.start ⟨0, tokens.length⟩ (build g tokens).trees ∧
    (∀ (path : List (String × Span)) (name : String) (span : Span) (listed : List Tree),
      (name, span) ∉ path → (build g tokens).Lists path name span listed → ∀ t ∈ listed,
        t.height ≤ g.rules.length * tokens.length ∧
          t.internalNodes ≤ g.rules.length * (2 * tokens.length - 1)) ∧
    ∀ direction : Direction, ∀ t ∈ parse g tokens direction,
      t.height ≤ g.rules.length * tokens.length ∧
        t.internalNodes ≤ g.rules.length * (2 * tokens.length - 1) ∧
        t.phrases.length ≤ g.rules.length * (2 * tokens.length - 1) ∧
        ∀ order : Direction, (t.forms order).length ≤ g.rules.length * (2 * tokens.length - 1) + 1 := by
  have htrees := lists_trees hg hne
  refine ⟨fun path name span => ?_, htrees, fun path name span listed hnot h => h.small hg hnot,
    fun direction t ht => ?_⟩
  · exact ⟨_, lists_treesWithin hg (Nat.lt_succ_self _),
      fun other hother => hother.unique (lists_treesWithin hg (Nat.lt_succ_self _))⟩
  · obtain ⟨hheight, hnodes⟩ := htrees.small hg List.not_mem_nil t (Direction.mem_arrange.mp ht)
    refine ⟨hheight, hnodes, ?_, fun order => ?_⟩
    · rw [Tree.length_phrases]
      exact hnodes
    · rw [Tree.length_forms]
      exact Nat.succ_le_succ hnodes

/-- A node of `A` over a node of `S`, on the cycle of single nonterminals. -/
def cycleTree : Tree :=
  .node (.nonterminal "A") [.node (.nonterminal "S") [.leaf "a"]]

/-- The cycle is cut where it comes back to `A`, so the call for `A` ends with a single tree; that tree and
the parses of two tokens keep to the bounds for three nonterminals. -/
theorem forest_terminates_loopGrammar :
    loopGrammar.WellFormed ∧ ["a", "a"] ≠ [] ∧
      ("A", (⟨0, 1⟩ : Span)) ∉ ([] : List (String × Span)) ∧
      (build loopGrammar ["a", "a"]).Lists [] "A" ⟨0, 1⟩ [cycleTree] ∧
      (∃! listed, (build loopGrammar ["a", "a"]).Lists [("S", ⟨0, 1⟩)] "A" ⟨0, 1⟩ listed) ∧
      cycleTree.height ≤ 3 * 2 ∧
      Tree.node (.nonterminal "S") [.node (.nonterminal "S") [.leaf "a"],
        .node (.nonterminal "S") [.leaf "a"]] ∈ parse loopGrammar ["a", "a"] .leftmost ∧
      ∀ t ∈ parse loopGrammar ["a", "a"] .leftmost, t.phrases.length ≤ 3 * (2 * 2 - 1) := by
  have hg : loopGrammar.WellFormed := by decide
  have hne : ["a", "a"] ≠ [] := by decide
  have hnot : ("A", (⟨0, 1⟩ : Span)) ∉ ([] : List (String × Span)) := List.not_mem_nil
  obtain ⟨hends, -, hsmall, hparse⟩ := forest_terminates loopGrammar hg ["a", "a"] hne
  have hcycle : (build loopGrammar ["a", "a"]).treesWithin 4 [] "A" ⟨0, 1⟩ = [cycleTree] := by decide
  have hlists : (build loopGrammar ["a", "a"]).Lists [] "A" ⟨0, 1⟩ [cycleTree] :=
    hcycle ▸ lists_treesWithin hg (by decide)
  exact ⟨hg, hne, hnot, hlists, hends _ _ _, (hsmall _ _ _ _ hnot hlists _ List.mem_cons_self).1,
    by decide, fun t ht => (hparse _ t ht).2.2.1⟩

end ParseForest.Chart
