import ParseForest.Chart.Forest
import ParseForest.Proofs.Chart.Contents
import ParseForest.Proofs.Derivation.Cycle

/-! # The forest holds the derivations without cycles

What `Chart.treesWithin` lists for a nonterminal over a span, with the pairs on the path above in
hand, are its derivations over the span that are low enough and avoid these pairs
(`mem_treesWithin_iff`).  The proof is an induction on the height; at a node it passes from the
combinations of trees for the parts of a split to the children placed one behind the other
(`mem_combinations_iff`).  The bound on the height used for the whole input excludes no derivation
without cycles (`mem_trees_iff`). -/

namespace ParseForest

variable {g : Grammar} {tokens : List String}

namespace Tree

/-- A derivation in its place that is low enough and avoids the pairs above. -/
structure Allowed (g : Grammar) (tokens : List String) (height : Nat) (above : List (Symbol × Span))
    (start : Nat) (t : Tree) : Prop where
  derives : t.DerivesAt g tokens start
  height_le : t.height ≤ height
  avoids : t.Avoids above start

/-- Derivations in their places that are low enough and avoid the pairs above. -/
structure AllowedAll (g : Grammar) (tokens : List String) (height : Nat)
    (above : List (Symbol × Span)) (start : Nat) (ts : List Tree) : Prop where
  derives : DerivesAllAt g tokens start ts
  height_le : heightAll ts ≤ height
  avoids : AvoidsAll above start ts

variable {height start : Nat} {above : List (Symbol × Span)}

theorem allowedAll_nil : AllowedAll g tokens height above start [] :=
  ⟨derivesAllAt_nil, Nat.zero_le _, avoidsAll_nil⟩

theorem allowedAll_cons {t : Tree} {ts : List Tree} :
    AllowedAll g tokens height above start (t :: ts) ↔
      Allowed g tokens height above start t ∧
        AllowedAll g tokens height above (start + t.leaves.length) ts := by
  constructor
  · rintro ⟨hd, hh, ha⟩
    obtain ⟨hd1, hd2⟩ := derivesAllAt_cons.mp hd
    obtain ⟨hh1, hh2⟩ := Nat.max_le.mp hh
    obtain ⟨ha1, ha2⟩ := avoidsAll_cons.mp ha
    exact ⟨⟨hd1, hh1, ha1⟩, ⟨hd2, hh2, ha2⟩⟩
  · rintro ⟨⟨hd1, hh1, ha1⟩, ⟨hd2, hh2, ha2⟩⟩
    exact ⟨derivesAllAt_cons.mpr ⟨hd1, hd2⟩, Nat.max_le.mpr ⟨hh1, hh2⟩,
      avoidsAll_cons.mpr ⟨ha1, ha2⟩⟩

theorem allowed_node {name : String} {children : List Tree} :
    Allowed g tokens (height + 1) above start (node (.nonterminal name) children) ↔
      g.ExpandsProperly name (children.map root) ∧
        (.nonterminal name, spanAt start (node (.nonterminal name) children)) ∉ above ∧
        AllowedAll g tokens height
          ((.nonterminal name, spanAt start (node (.nonterminal name) children)) :: above)
          start children := by
  have hheight : (node (.nonterminal name) children).height ≤ height + 1 ↔
      heightAll children ≤ height := by
    rw [Tree.height]
    omega
  constructor
  · rintro ⟨hd, hh, ha⟩
    obtain ⟨hexp, hall⟩ := derivesAt_node.mp hd
    obtain ⟨hnot, hav⟩ := avoids_node.mp ha
    exact ⟨hexp, hnot, hall, hheight.mp hh, hav⟩
  · rintro ⟨hexp, hnot, hall, hh, hav⟩
    exact ⟨derivesAt_node.mpr ⟨hexp, hall⟩, hheight.mpr hh, avoids_node.mpr ⟨hnot, hav⟩⟩

end Tree

/-- The pairs on a path, their nonterminals as symbols. -/
def symbolPairs (path : List (String × Span)) : List (Symbol × Span) :=
  path.map fun pair => (.nonterminal pair.1, pair.2)

theorem mem_symbolPairs {path : List (String × Span)} {name : String} {span : Span} :
    (Symbol.nonterminal name, span) ∈ symbolPairs path ↔ (name, span) ∈ path := by
  unfold symbolPairs
  rw [List.mem_map]
  constructor
  · rintro ⟨⟨n, s⟩, hm, heq⟩
    rw [Prod.mk.injEq, Symbol.nonterminal.injEq] at heq
    obtain ⟨rfl, rfl⟩ := heq
    exact hm
  · exact fun hm => ⟨_, hm, rfl⟩

theorem combinations_nil_of_cons {α : Type} {choices : List α} {rest : List (List α)} :
    [] ∉ combinations (choices :: rest) := by
  simp [combinations]

namespace Chart

/-- What the trees listed for a nonterminal are to be. -/
def ListsAllowed (g : Grammar) (tokens : List String) (height : Nat) : Prop :=
  ∀ (path : List (String × Span)) (name : String) (span : Span) (t : Tree), (name, span) ∉ path →
    (t ∈ (build g tokens).treesWithin height path name span ↔
      t.root = .nonterminal name ∧ t.spanAt span.start = span ∧
        t.Allowed g tokens height (symbolPairs path) span.start)

theorem mem_choices_iff {height : Nat} (hlists : ListsAllowed g tokens height)
    {path : List (String × Span)} {symbol : Symbol} {part : Span}
    (hfit : (build g tokens).fits symbol part = true) {t : Tree} :
    t ∈ (build g tokens).choices height path (symbol, part) ↔
      t.root = symbol ∧ t.spanAt part.start = part ∧
        t.Allowed g tokens height (symbolPairs path) part.start := by
  unfold choices
  cases symbol with
  | terminal text =>
      simp only [List.mem_singleton]
      constructor
      · rintro rfl
        obtain ⟨s, hroot, hd, hspan⟩ := fits_terminal_iff.mp hfit
        obtain rfl := hd.derives.eq_leaf hroot
        exact ⟨rfl, hspan, hd, Nat.zero_le _, Tree.avoids_leaf⟩
      · rintro ⟨hroot, -, ha⟩
        exact ha.derives.derives.eq_leaf hroot
  | nonterminal child =>
      simp only
      split
      · rename_i hmem
        refine ⟨fun h => absurd h List.not_mem_nil, ?_⟩
        rintro ⟨hroot, hspan, ha⟩
        obtain ⟨children, rfl⟩ := ha.derives.derives.eq_node hroot
        have hnot := (Tree.avoids_node.mp ha.avoids).1
        rw [hspan, mem_symbolPairs] at hnot
        exact absurd hmem hnot
      · rename_i hnot
        exact hlists path child part t hnot

theorem spans_cons (place start boundary : Nat) (rest : List Nat) :
    (⟨place, start :: boundary :: rest⟩ : Expansion).spans =
      ⟨start, boundary⟩ :: (⟨place, boundary :: rest⟩ : Expansion).spans := rfl

theorem mem_combinations_iff {height : Nat} (hlists : ListsAllowed g tokens height)
    {path : List (String × Span)} {stop start : Nat} {symbols : List Symbol} {rest : List Nat}
    (h : FitAll (build g tokens).fits stop symbols start rest) (place : Nat) {children : List Tree} :
    children ∈ combinations ((symbols.zip (⟨place, start :: rest⟩ : Expansion).spans).map
        ((build g tokens).choices height path)) ↔
      children.map Tree.root = symbols ∧ Tree.boundaries start children = start :: rest ∧
        start + (Tree.leavesAll children).length = stop ∧
        Tree.AllowedAll g tokens height (symbolPairs path) start children := by
  induction h generalizing children with
  | done =>
      rw [List.zip_nil_left, List.map_nil, combinations, List.mem_singleton, List.map_eq_nil_iff]
      refine ⟨?_, fun h => h.1⟩
      rintro rfl
      exact ⟨rfl, rfl, rfl, Tree.allowedAll_nil⟩
  | @part symbol symbols start boundary rest hlt hfit hrest ih =>
      rw [spans_cons, List.zip_cons_cons, List.map_cons]
      cases children with
      | nil =>
          refine ⟨fun h => absurd h combinations_nil_of_cons, ?_⟩
          rintro ⟨h, -⟩
          exact absurd h (List.cons_ne_nil _ _).symm
      | cons child children =>
          rw [mem_combinations_cons, mem_choices_iff hlists hfit, ih, List.map_cons, List.cons.injEq,
            Tree.boundaries_cons_eq_iff, Tree.allowedAll_cons, Tree.leavesAll, List.length_append,
            Tree.spanAt_eq_iff, ← Nat.add_assoc]
          constructor
          · rintro ⟨⟨hroot, hstop, hchild⟩, hroots, hb, hend, hall⟩
            simp only at hstop
            rw [hstop]
            exact ⟨⟨hroot, hroots⟩, ⟨rfl, hb⟩, hend, hchild, hall⟩
          · rintro ⟨⟨hroot, hroots⟩, ⟨hstop, hb⟩, hend, hchild, hall⟩
            rw [hstop] at hb hend hall
            exact ⟨⟨hroot, hstop, hchild⟩, hroots, hb, hend, hall⟩

theorem parts_build {name : String} {expansion : Expansion} {symbols : Alternative}
    (h : (g.alternatives name)[expansion.alternative]? = some symbols) :
    (build g tokens).parts name expansion = symbols.zip expansion.spans := by
  show ((g.alternatives name)[expansion.alternative]?.getD []).zip expansion.spans = _
  rw [h, Option.getD_some]

/-- An expansion with children in its parts makes a node over the span, and every node over the span
comes from the expansion with its alternative and its boundaries. -/
theorem listsAllowed_succ (hn : g.names.Nodup) {height : Nat} (hlists : ListsAllowed g tokens height) :
    ListsAllowed g tokens (height + 1) := by
  intro path name span t hnot
  rw [treesWithin_succ, List.mem_flatMap]
  constructor
  · rintro ⟨⟨place, boundaries⟩, hexp, hm⟩
    obtain ⟨children, hc, rfl⟩ := List.mem_map.mp hm
    obtain ⟨symbols, hplace, hne, rest, hb, hfit⟩ := (mem_expansions_iff hn).mp hexp
    simp only at hplace hb
    subst hb
    rw [parts_build hplace, mem_combinations_iff hlists hfit] at hc
    obtain ⟨rfl, -, hstop, hall⟩ := hc
    have hspan : Tree.spanAt span.start (.node (.nonterminal name) children) = span :=
      Tree.spanAt_eq_iff.mpr hstop
    have hexpands : g.ExpandsProperly name (children.map Tree.root) :=
      ⟨hne, List.mem_of_getElem? hplace⟩
    refine ⟨rfl, hspan, Tree.allowed_node.mpr ⟨hexpands, ?_, ?_⟩⟩
    · rw [hspan, mem_symbolPairs]
      exact hnot
    · rw [hspan]
      exact hall
  · rintro ⟨hroot, hspan, ha⟩
    obtain ⟨children, rfl⟩ := ha.derives.derives.eq_node hroot
    obtain ⟨-, -, hall⟩ := Tree.allowed_node.mp ha
    obtain ⟨place, rest, hplace, hb, hfit, hmem⟩ := exists_expansion hn ha.derives hspan
    rw [hspan] at hall
    refine ⟨_, hmem, List.mem_map.mpr ⟨children, ?_, rfl⟩⟩
    rw [parts_build hplace, mem_combinations_iff hlists hfit]
    exact ⟨rfl, hb, Tree.spanAt_eq_iff.mp hspan, hall⟩

theorem mem_treesWithin_iff (hn : g.names.Nodup) (height : Nat) : ListsAllowed g tokens height := by
  induction height with
  | zero =>
      intro path name span t _
      refine ⟨fun h => absurd h List.not_mem_nil, ?_⟩
      rintro ⟨hroot, -, ha⟩
      obtain ⟨children, rfl⟩ := ha.derives.derives.eq_node hroot
      have hle := ha.height_le
      rw [Tree.height] at hle
      omega
  | succ height ih => exact listsAllowed_succ hn ih

theorem trees_eq_treesWithin (hne : tokens ≠ []) :
    (build g tokens).trees = (build g tokens).treesWithin (g.rules.length * tokens.length) [] g.start
      ⟨0, tokens.length⟩ := by
  unfold trees
  rw [if_neg (by rw [List.isEmpty_iff]; exact hne)]
  rfl

/-- Whatever height is allowed beyond the bound, listed for the whole input are the derivations of the
start symbol that are free of cycles. -/
theorem mem_treesWithin_whole_iff (hn : g.names.Nodup) (hne : tokens ≠ []) {height : Nat}
    (hle : g.rules.length * tokens.length ≤ height) {t : Tree} :
    t ∈ (build g tokens).treesWithin height [] g.start ⟨0, tokens.length⟩ ↔
      t.root = .nonterminal g.start ∧ t.Derives g.ExpandsProperly ∧ t.leaves = tokens ∧
        t.CycleFree := by
  have hwhole := Span.slice_whole tokens
  have hpos : 0 < tokens.length := List.length_pos_iff.mpr hne
  rw [mem_treesWithin_iff hn height [] g.start _ t List.not_mem_nil]
  constructor
  · rintro ⟨hroot, hspan, ha⟩
    obtain ⟨-, hd, hleaves⟩ := Tree.derivesAt_and_spanAt_iff.mp ⟨ha.derives, hspan⟩
    exact ⟨hroot, hd, hleaves.trans hwhole, Tree.cycleFree_iff_avoids.mpr ha.avoids⟩
  · rintro ⟨hroot, hd, hleaves, hc⟩
    have hav := Tree.cycleFree_iff_avoids.mp hc
    obtain ⟨hda, hspan⟩ := Tree.derivesAt_and_spanAt_iff.mpr
      ⟨⟨hpos, Nat.le_refl _⟩, hd, hleaves.trans hwhole.symm⟩
    have hheight := Tree.height_le_of_avoids hd hav
    rw [hleaves] at hheight
    exact ⟨hroot, hspan, hda, Nat.le_trans hheight hle, hav⟩

/-- **The forest of a non-empty input**: the derivations of the start symbol over all tokens that are
free of cycles. -/
theorem mem_trees_iff (hn : g.names.Nodup) (hne : tokens ≠ []) {t : Tree} :
    t ∈ (build g tokens).trees ↔
      t.root = .nonterminal g.start ∧ t.Derives g.ExpandsProperly ∧ t.leaves = tokens ∧
        t.CycleFree := by
  rw [trees_eq_treesWithin hne]
  exact mem_treesWithin_whole_iff hn hne (Nat.le_refl _)

theorem accepts_nil_iff : (build g []).accepts = true ↔ [] ∈ g.alternatives g.start := by
  show (g.alternatives g.start).any List.isEmpty = true ↔ _
  rw [List.any_eq_true]
  simp only [List.isEmpty_iff]
  exact ⟨fun ⟨_, hm, he⟩ => he ▸ hm, fun hm => ⟨[], hm, rfl⟩⟩

theorem trees_nil (g : Grammar) :
    (build g []).trees =
      if [] ∈ g.alternatives g.start then [Tree.node (.nonterminal g.start) []] else [] := by
  show (if (build g []).accepts then [Tree.node (.nonterminal g.start) []] else []) = _
  exact if_congr accepts_nil_iff rfl rfl

theorem derives_of_mem_parse (hn : g.names.Nodup) {direction : Direction} {t : Tree}
    (h : t ∈ parse g tokens direction) :
    t.root = .nonterminal g.start ∧ t.Derives g.Expands ∧ t.leaves = tokens := by
  have htrees : t ∈ (build g tokens).trees := Direction.mem_arrange.mp h
  by_cases hne : tokens = []
  · subst hne
    rw [trees_nil] at htrees
    split at htrees
    · rename_i hempty
      obtain rfl := List.mem_singleton.mp htrees
      exact ⟨rfl, .node g.start [] hempty fun child hmem => absurd hmem List.not_mem_nil, rfl⟩
    · exact absurd htrees List.not_mem_nil
  · obtain ⟨hroot, hd, hleaves, -⟩ := (mem_trees_iff hn hne).mp htrees
    exact ⟨hroot, hd.of_proper, hleaves⟩

/-- **Soundness and completeness of the forest.**  For a non-empty input it holds the derivations of
the start symbol over all tokens, without empty alternatives, that are free of cycles; for the
empty input, the start symbol without children if it has an empty alternative. -/
theorem trees_sound_complete (g : Grammar) (hg : g.WellFormed) (tokens : List String) :
    (tokens ≠ [] → ∀ t : Tree, t ∈ (build g tokens).trees ↔
      t.root = .nonterminal g.start ∧ t.Derives g.ExpandsProperly ∧ t.leaves = tokens ∧
        t.CycleFree) ∧
    (tokens = [] → (build g tokens).trees =
      if [] ∈ g.alternatives g.start then [Tree.node (.nonterminal g.start) []] else []) := by
  refine ⟨fun hne t => mem_trees_iff hg.names_nodup hne, fun he => ?_⟩
  rw [he]
  exact trees_nil g

/-- Left recursion, an empty alternative, a cycle of single nonterminals and an unproductive rule. -/
def loopGrammar : Grammar :=
  { start := "S"
    rules := [⟨"S", [[.nonterminal "S", .nonterminal "S"], [.nonterminal "A"], [.terminal "a"], []]⟩,
      ⟨"A", [[.nonterminal "S"]]⟩, ⟨"U", [[.nonterminal "U", .terminal "u"]]⟩] }

/-- Of the derivations of one token the one without cycles is in the forest, the others are not. -/
theorem trees_loopGrammar_sound_complete :
    loopGrammar.WellFormed ∧ ["a"] ≠ [] ∧
      Tree.node (.nonterminal "S") [.leaf "a"] ∈ (build loopGrammar ["a"]).trees ∧
      Tree.node (.nonterminal "S") [.node (.nonterminal "A") [.node (.nonterminal "S") [.leaf "a"]]] ∉
        (build loopGrammar ["a"]).trees := by
  have hg : loopGrammar.WellFormed := by decide
  have hne : ["a"] ≠ [] := by decide
  have h := (trees_sound_complete loopGrammar hg ["a"]).1 hne
  refine ⟨hg, hne, (h _).mpr ⟨rfl, ?_, by decide, by decide⟩, fun hm => ?_⟩
  · refine .node "S" _ ⟨by decide, by unfold Grammar.Expands; decide⟩ fun child hchild => ?_
    rw [List.mem_singleton.mp hchild]
    exact .leaf "a"
  · have hcycle := ((h _).mp hm).2.2.2
    revert hcycle
    decide

end Chart

end ParseForest
