import ParseForest.Derivation.Phrase
import ParseForest.Proofs.Chart.Forest
import ParseForest.Proofs.Derivation.Frontier
import ParseForest.Tree.Occurrence

/-! # The nodes in the order of their expansion

The forms of a tree expand its nodes one after the other, each in its place.  Listed with the leaves to
its left and to its right, a node of a frontier with only leaves on its outer side is the first of all
nodes, and the nodes behind it are those of the next frontier (`nodesAll_place`).  By induction over
frontiers there is a form for each node and one more (`length_frontierForms`), and the form of a node
has its label in its place, where the next form has the symbols of its children
(`frontierForms_rewrites`).  The labels may be terminals, and nodes may have no children.

In a derivation tree each node has an alternative for its children, so each of these steps expands the
outermost nonterminal (`forms_expand_nodes`). -/

namespace ParseForest

namespace Tree

variable {direction : Direction} {before after children : List Tree} {label : Symbol}

/-! ### Nodes in their places -/

/-- The node with all that is below it, and without what stands beside it. -/
def Occurrence.tree (occurrence : Occurrence) : Tree :=
  node occurrence.label occurrence.children

/-- The nodes of neighbouring trees in the order in which they are expanded. -/
def nodesAll : Direction → (left right : List String) → List Tree → List Occurrence
  | .leftmost => nodesAllFromLeft
  | .rightmost => nodesAllFromRight

/-- The nodes of a tree in the order in which they are expanded. -/
def nodes : Direction → Tree → List Occurrence
  | .leftmost => nodesFromLeft [] []
  | .rightmost => nodesFromRight [] []

theorem nodesAll_singleton (direction : Direction) (t : Tree) :
    nodesAll direction [] [] [t] = t.nodes direction := by
  cases direction with
  | leftmost => simp [nodesAll, nodes, nodesAllFromLeft, leavesAll]
  | rightmost => simp [nodesAll, nodes, nodesAllFromRight, leavesAll]

theorem nodesAllFromLeft_append (left right : List String) (ss ts : List Tree) :
    nodesAllFromLeft left right (ss ++ ts) =
      nodesAllFromLeft left (leavesAll ts ++ right) ss ++
        nodesAllFromLeft (left ++ leavesAll ss) right ts := by
  induction ss generalizing left with
  | nil => simp [nodesAllFromLeft, leavesAll]
  | cons s ss ih => simp [nodesAllFromLeft, leavesAll, leavesAll_append, ih]

theorem nodesAllFromRight_append (left right : List String) (ss ts : List Tree) :
    nodesAllFromRight left right (ss ++ ts) =
      nodesAllFromRight (left ++ leavesAll ss) right ts ++
        nodesAllFromRight left (leavesAll ts ++ right) ss := by
  induction ss generalizing left with
  | nil => simp [nodesAllFromRight, leavesAll]
  | cons s ss ih => simp [nodesAllFromRight, leavesAll, leavesAll_append, ih]

theorem nodesAll_leaves (direction : Direction) (left right : List String) {frontier : List Tree}
    (h : ∀ t ∈ frontier, t.isLeaf = true) : nodesAll direction left right frontier = [] := by
  induction frontier generalizing left with
  | nil => cases direction <;> rfl
  | cons t rest ih =>
      obtain ⟨ht, hrest⟩ := List.forall_mem_cons.mp h
      cases t with
      | node label children => exact absurd ht Bool.false_ne_true
      | leaf text =>
          have hnone := ih (left ++ [text]) hrest
          cases direction with
          | leftmost => exact hnone
          | rightmost => exact (List.append_nil _).trans hnone

/-- With only leaves on its outer side a node is the first to be expanded, and then come the nodes of the
frontier with its children in its place. -/
theorem nodesAll_place (h : ∀ t ∈ direction.outer before after, t.isLeaf = true) :
    nodesAll direction [] [] (before ++ node label children :: after) =
      ⟨leavesAll before, label, children, leavesAll after⟩ ::
        nodesAll direction [] [] (before ++ children ++ after) := by
  cases direction with
  | leftmost =>
      have hnone : ∀ right, nodesAllFromLeft [] right before = [] :=
        fun right => nodesAll_leaves .leftmost [] right h
      simp [nodesAll, nodesAllFromLeft_append, hnone, nodesAllFromLeft, nodesFromLeft, leaves]
  | rightmost =>
      have hnone : ∀ left, nodesAllFromRight left [] after = [] :=
        fun left => nodesAll_leaves .rightmost left [] h
      simp [nodesAll, nodesAllFromRight_append, hnone, nodesAllFromRight, nodesFromRight, leavesAll,
        leaves, leavesAll_append]

/-! ### All nodes, each once -/

mutual

theorem nodesFromRight_perm (left right : List String) :
    (t : Tree) → (t.nodesFromRight left right).Perm (t.nodesFromLeft left right)
  | leaf _ => .refl []
  | node _ children => (nodesAllFromRight_perm left right children).cons _

theorem nodesAllFromRight_perm (left right : List String) :
    (ts : List Tree) → (nodesAllFromRight left right ts).Perm (nodesAllFromLeft left right ts)
  | [] => .refl []
  | t :: ts => by
      rw [nodesAllFromRight, nodesAllFromLeft]
      have hfirst := nodesFromRight_perm left (leavesAll ts ++ right) t
      have hrest := nodesAllFromRight_perm (left ++ t.leaves) right ts
      exact List.perm_append_comm.trans (hfirst.append hrest)

end

theorem nodes_perm (direction : Direction) (t : Tree) :
    (t.nodes direction).Perm (t.nodes .leftmost) := by
  cases direction with
  | leftmost => exact .refl _
  | rightmost => exact nodesFromRight_perm [] [] t

mutual

theorem map_phrase_nodesFromLeft (left right : List String) :
    (t : Tree) → (t.nodesFromLeft left right).map (fun found => found.tree.phrase) = t.phrases
  | leaf _ => rfl
  | node label children => by
      rw [nodesFromLeft, phrases, List.map_cons, map_phrase_nodesAllFromLeft left right children]
      rfl

theorem map_phrase_nodesAllFromLeft (left right : List String) :
    (ts : List Tree) →
      (nodesAllFromLeft left right ts).map (fun found => found.tree.phrase) = phrasesAll ts
  | [] => rfl
  | t :: ts => by
      rw [nodesAllFromLeft, phrasesAll, List.map_append,
        map_phrase_nodesFromLeft left (leavesAll ts ++ right) t,
        map_phrase_nodesAllFromLeft (left ++ t.leaves) right ts]

end

/-- The leaves under a node stand between those to its left and those to its right. -/
theorem leaves_of_mem_nodesAll (direction : Direction) (frontier : List Tree) :
    ∀ found ∈ nodesAll direction [] [] frontier,
      found.before ++ found.tree.leaves ++ found.after = leavesAll frontier := by
  induction frontier using frontier_induction direction with
  | leaves frontier hleaves =>
      intro found hmem
      rw [nodesAll_leaves direction [] [] hleaves] at hmem
      exact absurd hmem List.not_mem_nil
  | expand before label children after houter ih =>
      rw [nodesAll_place houter, leavesAll_node]
      refine List.forall_mem_cons.mpr ⟨?_, ih⟩
      rw [leavesAll_append, leavesAll_append]
      rfl

/-! ### A form for each node -/

/-- The form has the label of the node in its place, and the next form has there the symbols of the
children.  On the outer side stand the leaves there. -/
def Occurrence.Rewrites (direction : Direction) (found : Occurrence) (form next : Form) : Prop :=
  ∃ before after, form = before ++ found.label :: after ∧
    next = before ++ found.children.map root ++ after ∧
    direction.outer before after = Form.ofTokens (direction.outer found.before found.after)

theorem formOf_leaves {frontier : List Tree} (h : ∀ t ∈ frontier, t.isLeaf = true) :
    formOf frontier = Form.ofTokens (leavesAll frontier) := by
  induction frontier with
  | nil => rfl
  | cons t rest ih =>
      obtain ⟨ht, hrest⟩ := List.forall_mem_cons.mp h
      cases t with
      | leaf text => exact congrArg (Symbol.terminal text :: ·) (ih hrest)
      | node label children => exact absurd ht Bool.false_ne_true

theorem head?_frontierForms (direction : Direction) (frontier : List Tree) :
    (frontierForms direction frontier).head? = some (formOf frontier) := by
  rcases exists_place direction frontier with hleaves | ⟨before, label, children, after, rfl, houter⟩
  · rw [frontierForms_leaves hleaves, List.head?_singleton]
  · rw [frontierForms_place houter, List.head?_cons]

theorem length_frontierForms (direction : Direction) (frontier : List Tree) :
    (frontierForms direction frontier).length = (nodesAll direction [] [] frontier).length + 1 := by
  induction frontier using frontier_induction direction with
  | leaves frontier hleaves =>
      rw [frontierForms_leaves hleaves, nodesAll_leaves direction [] [] hleaves]
      rfl
  | expand before label children after houter ih =>
      rw [frontierForms_place houter, nodesAll_place houter, List.length_cons, List.length_cons, ih]

theorem internalNodesAll_leaves {frontier : List Tree} (h : ∀ t ∈ frontier, t.isLeaf = true) :
    internalNodesAll frontier = 0 := by
  induction frontier with
  | nil => rfl
  | cons t rest ih =>
      obtain ⟨ht, hrest⟩ := List.forall_mem_cons.mp h
      cases t with
      | leaf text => rw [internalNodesAll, internalNodes, ih hrest]
      | node label children => exact absurd ht Bool.false_ne_true

theorem length_nodesAll (direction : Direction) (frontier : List Tree) :
    (nodesAll direction [] [] frontier).length = internalNodesAll frontier := by
  induction frontier using frontier_induction direction with
  | leaves frontier hleaves =>
      rw [nodesAll_leaves direction [] [] hleaves, internalNodesAll_leaves hleaves]
      rfl
  | expand before label children after houter ih =>
      rw [nodesAll_place houter, internalNodesAll_node, List.length_cons, ih]

theorem length_phrases (t : Tree) : t.phrases.length = t.internalNodes := by
  have hnodes := length_nodesAll .leftmost [t]
  rw [nodesAll_singleton] at hnodes
  rw [← map_phrase_nodesFromLeft [] [] t, List.length_map]
  exact hnodes

theorem length_forms (direction : Direction) (t : Tree) :
    (t.forms direction).length = t.internalNodes + 1 := by
  rw [forms_eq_frontierForms, length_frontierForms, length_nodesAll]
  rfl

theorem getLast?_frontierForms (direction : Direction) (frontier : List Tree) :
    (frontierForms direction frontier).getLast? = some (Form.ofTokens (leavesAll frontier)) := by
  induction frontier using frontier_induction direction with
  | leaves frontier hleaves =>
      rw [frontierForms_leaves hleaves, formOf_leaves hleaves, List.getLast?_singleton]
  | expand before label children after houter ih =>
      rw [frontierForms_place houter, leavesAll_node, List.getLast?_cons, ih]
      rfl

/-- One expansion: the first node of a frontier leads from its form to that of the next frontier. -/
theorem rewrites_place (h : ∀ t ∈ direction.outer before after, t.isLeaf = true) :
    Occurrence.Rewrites direction ⟨leavesAll before, label, children, leavesAll after⟩
      (formOf (before ++ node label children :: after)) (formOf (before ++ children ++ after)) := by
  refine ⟨formOf before, formOf after, formOf_place, formOf_expanded, ?_⟩
  cases direction with
  | leftmost => exact formOf_leaves h
  | rightmost => exact formOf_leaves h

/-- All expansions: each node leads from its form to the next. -/
theorem frontierForms_rewrites (direction : Direction) (frontier : List Tree) :
    ∀ (k : Nat) (found : Occurrence), (nodesAll direction [] [] frontier)[k]? = some found →
      ∃ form next, (frontierForms direction frontier)[k]? = some form ∧
        (frontierForms direction frontier)[k + 1]? = some next ∧ found.Rewrites direction form next := by
  induction frontier using frontier_induction direction with
  | leaves frontier hleaves =>
      intro k found hfound
      rw [nodesAll_leaves direction [] [] hleaves] at hfound
      exact absurd hfound.symm (Option.some_ne_none found)
  | expand before label children after houter ih =>
      intro k found hfound
      rw [frontierForms_place houter]
      rw [nodesAll_place houter] at hfound
      cases k with
      | zero =>
          obtain rfl := Option.some.inj hfound
          refine ⟨_, _, rfl, ?_, rewrites_place houter⟩
          rw [List.getElem?_cons_succ, ← List.head?_eq_getElem?, head?_frontierForms]
      | succ k =>
          obtain ⟨form, next, hform, hnext, hrewrites⟩ := ih k found hfound
          exact ⟨form, next, hform, hnext, hrewrites⟩

/-! ### Derivation trees -/

variable {g : Grammar}

theorem Frontier.expands_of_mem_nodesAll (direction : Direction) (frontier : List Tree) :
    Frontier g frontier → ∀ found ∈ nodesAll direction [] [] frontier,
      ∃ name, found.label = .nonterminal name ∧ g.Expands name (found.children.map root) := by
  induction frontier using frontier_induction direction with
  | leaves frontier hleaves =>
      intro _ found hmem
      rw [nodesAll_leaves direction [] [] hleaves] at hmem
      exact absurd hmem List.not_mem_nil
  | expand before label children after houter ih =>
      intro h
      obtain ⟨-, -, hnext, hexpands⟩ := h.place
      rw [nodesAll_place houter]
      exact List.forall_mem_cons.mpr ⟨hexpands, ih hnext⟩

theorem Occurrence.Rewrites.step {found : Occurrence} {form next : Form} {name : String}
    (h : found.Rewrites direction form next) (hname : found.label = .nonterminal name)
    (hexpands : g.Expands name (found.children.map root)) : g.Step direction form next := by
  obtain ⟨before, after, rfl, rfl, houter⟩ := h
  rw [hname]
  exact Grammar.step_iff.mpr ⟨before, name, _, after, rfl, rfl, hexpands,
    Form.all_terminal_iff.mpr ⟨_, houter⟩⟩

theorem Derives.step_forms {t : Tree} (hd : t.Derives g.Expands) {k : Nat} {form next : Form}
    (hform : (t.forms direction)[k]? = some form) (hnext : (t.forms direction)[k + 1]? = some next) :
    g.Step direction form next := by
  have hfrontier : Frontier g [t] := List.forall_mem_singleton.mpr hd
  rw [forms_eq_frontierForms] at hform hnext
  obtain ⟨hlt, -⟩ := List.getElem?_eq_some_iff.mp hnext
  rw [length_frontierForms] at hlt
  obtain ⟨form', next', hform', hnext', hrewrites⟩ :=
    frontierForms_rewrites direction [t] k _ (List.getElem?_eq_getElem (Nat.lt_of_succ_lt_succ hlt))
  obtain ⟨name, hname, hexpands⟩ :=
    hfrontier.expands_of_mem_nodesAll direction [t] _ (List.getElem_mem (Nat.lt_of_succ_lt_succ hlt))
  obtain rfl := Option.some.inj (hform.symm.trans hform')
  obtain rfl := Option.some.inj (hnext.symm.trans hnext')
  exact hrewrites.step hname hexpands

/-- **The forms of a tree expand its nodes one after the other.**  There is one form more than there are
nodes.  The first is the root alone, and the last is the leaves, which render as the phrase of the tree.
Of the nodes in the order of the direction, the one at place `k` leads from the form at place `k` to
the next: its label gives way to the symbols of its children, and on the outer side of it stand exactly
the leaves there.  From the left the nodes are those whose phrases are listed, and from the right they
are the same nodes.  If the tree comes from a parse, each of these steps expands the outermost
nonterminal of the form by an alternative of the grammar. -/
theorem forms_expand_nodes (direction : Direction) (t : Tree) :
    (t.forms direction).length = t.internalNodes + 1 ∧
    (t.forms direction).head? = some [t.root] ∧
    (t.forms direction).getLast? = some (Form.ofTokens t.leaves) ∧
    (Form.ofTokens t.leaves).render = t.phrase ∧
    ((t.nodes direction).length = t.internalNodes ∧
      (t.nodes direction).Perm (t.nodes .leftmost) ∧
      (t.nodes .leftmost).map (fun found => found.tree.phrase) = t.phrases ∧
      ∀ found ∈ t.nodes direction, found.before ++ found.tree.leaves ++ found.after = t.leaves) ∧
    (∀ (k : Nat) (found : Occurrence), (t.nodes direction)[k]? = some found →
      ∃ before after, (t.forms direction)[k]? = some (before ++ found.label :: after) ∧
        (t.forms direction)[k + 1]? = some (before ++ found.children.map root ++ after) ∧
        direction.outer before after = Form.ofTokens (direction.outer found.before found.after)) ∧
    ∀ (g : Grammar) (tokens : List String) (listed : Direction), g.WellFormed →
      t ∈ parse g tokens listed →
      g.Derivation direction tokens (t.forms direction) ∧
        ∀ (k : Nat) (form next : Form), (t.forms direction)[k]? = some form →
          (t.forms direction)[k + 1]? = some next → g.Step direction form next := by
  have hall : leavesAll [t] = t.leaves := List.append_nil _
  have hlength : (t.nodes direction).length = t.internalNodes := by
    rw [← nodesAll_singleton, length_nodesAll]
    exact Nat.add_zero _
  refine ⟨?_, ?_, ?_, ?_,
    ⟨hlength, nodes_perm direction t, map_phrase_nodesFromLeft [] [] t, ?_⟩, ?_, ?_⟩
  · rw [forms_eq_frontierForms, length_frontierForms, nodesAll_singleton, hlength]
  · exact head?_frontierForms direction [t]
  · rw [forms_eq_frontierForms, getLast?_frontierForms, hall]
  · rw [Form.render, Form.ofTokens, List.map_map]
    exact congrArg Text.spaced (List.map_id t.leaves)
  · rw [← nodesAll_singleton, ← hall]
    exact leaves_of_mem_nodesAll direction [t]
  · intro k found hfound
    rw [← nodesAll_singleton] at hfound
    obtain ⟨_, _, hform, hnext, before, after, rfl, rfl, houter⟩ :=
      frontierForms_rewrites direction [t] k found hfound
    exact ⟨before, after, hform, hnext, houter⟩
  · intro g tokens listed hg hmem
    obtain ⟨hroot, hd, hleaves⟩ := Chart.derives_of_mem_parse hg.names_nodup hmem
    exact ⟨derivation_iff.mpr ⟨t, ⟨hroot, hd, hleaves⟩, rfl⟩, fun k form next => hd.step_forms⟩

/-- A product with a terminal for a label and, beside it, a node without children. -/
def productTree : Tree :=
  node (.terminal "*") [node (.nonterminal "E") [], leaf "a", node (.terminal "-") [leaf "b"]]

/-- The product is expanded from the right past the leaf in the middle, and a parse of two tokens is
expanded by the grammar. -/
theorem forms_expand_nodes_productTree :
    (∃ before after, (productTree.forms .rightmost)[2]? = some (before ++ .nonterminal "E" :: after) ∧
      (productTree.forms .rightmost)[3]? = some (before ++ [] ++ after) ∧
      after = Form.ofTokens ["a", "b"]) ∧
    Chart.loopGrammar.WellFormed ∧
    node (.nonterminal "S") [node (.nonterminal "S") [leaf "a"], node (.nonterminal "S") [leaf "a"]] ∈
      parse Chart.loopGrammar ["a", "a"] .leftmost ∧
    Chart.loopGrammar.Step .rightmost [.nonterminal "S", .nonterminal "S"]
      [.nonterminal "S", .terminal "a"] := by
  have hg : Chart.loopGrammar.WellFormed := by decide
  have hmem : node (.nonterminal "S") [node (.nonterminal "S") [leaf "a"],
      node (.nonterminal "S") [leaf "a"]] ∈ parse Chart.loopGrammar ["a", "a"] .leftmost := by decide
  have hproduct := (forms_expand_nodes .rightmost productTree).2.2.2.2.2.1
  have hparsed := (forms_expand_nodes .rightmost _).2.2.2.2.2.2 Chart.loopGrammar _ _ hg hmem
  exact ⟨hproduct 2 ⟨[], .nonterminal "E", [], ["a", "b"]⟩ rfl, hg, hmem, hparsed.2 1 _ _ rfl rfl⟩

end Tree

end ParseForest
