import Mathlib.Data.List.Basic
import Mathlib.Data.List.ProdSigma
import ParseForest.Proofs.Derivation.Placed
import ParseForest.Proofs.Grammar.Rules

/-! # Derivations without cycles

The paths down a derivation are chains of pairs of a nonterminal and a span, each span within the one
above.  `Tree.Avoids` says what walking down with the pairs above in hand checks: none of them is
met again.  From the root this is freedom of cycles (`cycleFree_iff_avoids`).

Spans within one another that are equally long are equal, so on a path without repetition there
are at most as many pairs as there are nonterminals times tokens (`height_le_of_avoids`).  And
nothing is lost by leaving cycles out: a symbol with a derivation over a span has one that is free of
cycles (`exists_avoids`). -/

namespace ParseForest.Tree

variable {g : Grammar} {tokens : List String} {start : Nat} {above : List (Symbol × Span)}

/-! ### Walking down with the pairs above -/

/-- No path down meets a pair above, or a pair twice. -/
def Avoids (above : List (Symbol × Span)) (start : Nat) (t : Tree) : Prop :=
  ∀ path ∈ t.pathsAt start, path.Nodup ∧ path.Disjoint above

/-- No path down any of the trees meets a pair above, or a pair twice. -/
def AvoidsAll (above : List (Symbol × Span)) (start : Nat) (ts : List Tree) : Prop :=
  ∀ path ∈ pathsAllAt start ts, path.Nodup ∧ path.Disjoint above

theorem cycleFree_iff_avoids {t : Tree} : t.CycleFree ↔ Avoids [] 0 t := by
  refine forall_congr' fun path => imp_congr_right fun _ => ?_
  exact ⟨fun h => ⟨h, List.disjoint_nil_right _⟩, fun h => h.1⟩

theorem avoids_leaf {text : String} : Avoids above start (leaf text) :=
  fun _ h => absurd h List.not_mem_nil

theorem avoids_node {label : Symbol} {children : List Tree} :
    Avoids above start (node label children) ↔
      (label, spanAt start (node label children)) ∉ above ∧
        AvoidsAll ((label, spanAt start (node label children)) :: above) start children := by
  unfold Avoids AvoidsAll
  rw [pathsAt]
  simp only [List.forall_mem_cons, List.forall_mem_map, List.nodup_cons, List.disjoint_cons_left,
    List.disjoint_cons_right]
  constructor
  · rintro ⟨⟨-, hhere, -⟩, hpaths⟩
    refine ⟨hhere, fun path hp => ?_⟩
    obtain ⟨⟨hnot, hnodup⟩, -, hdisj⟩ := hpaths path hp
    exact ⟨hnodup, hnot, hdisj⟩
  · rintro ⟨hhere, hpaths⟩
    refine ⟨⟨⟨List.not_mem_nil, List.nodup_nil⟩, hhere, List.disjoint_nil_left _⟩, fun path hp => ?_⟩
    obtain ⟨hnodup, hnot, hdisj⟩ := hpaths path hp
    exact ⟨⟨hnot, hnodup⟩, hhere, hdisj⟩

theorem avoidsAll_nil : AvoidsAll above start [] :=
  fun _ h => absurd h List.not_mem_nil

theorem avoidsAll_cons {t : Tree} {ts : List Tree} :
    AvoidsAll above start (t :: ts) ↔
      Avoids above start t ∧ AvoidsAll above (start + t.leaves.length) ts := by
  unfold Avoids AvoidsAll
  rw [pathsAllAt, List.forall_mem_append]

/-! ### Paths are chains of spans -/

/-- A pair on a path of a derivation between two positions: a nonterminal with a rule, and a span. -/
def PathPair (g : Grammar) (start stop : Nat) (pair : Symbol × Span) : Prop :=
  (∃ name ∈ g.names, pair.1 = .nonterminal name) ∧
    start ≤ pair.2.start ∧ pair.2.start < pair.2.stop ∧ pair.2.stop ≤ stop

theorem PathPair.mono {start start' stop stop' : Nat} {pair : Symbol × Span}
    (h : PathPair g start' stop' pair) (hstart : start ≤ start') (hstop : stop' ≤ stop) :
    PathPair g start stop pair :=
  ⟨h.1, Nat.le_trans hstart h.2.1, h.2.2.1, Nat.le_trans h.2.2.2 hstop⟩

/-- The second span lies within the first. -/
def Nested (a b : Symbol × Span) : Prop :=
  a.2.start ≤ b.2.start ∧ b.2.start < b.2.stop ∧ b.2.stop ≤ a.2.stop

mutual

theorem paths_nested : (t : Tree) → (start : Nat) → t.Derives g.ExpandsProperly →
    ∀ path ∈ t.pathsAt start, path.Pairwise Nested ∧
      ∀ pair ∈ path, PathPair g start (start + t.leaves.length) pair
  | leaf _, _, _, _, hp => absurd hp List.not_mem_nil
  | node label children, start, hd, path, hp => by
      cases hd with
      | node name children hexp hc =>
          have hd := Derives.node name children hexp hc
          have hname := Grammar.mem_names_of_expands hexp.2
          have hhere : PathPair g start (start + (node (.nonterminal name) children).leaves.length)
              (.nonterminal name, spanAt start (node (.nonterminal name) children)) :=
            ⟨⟨name, hname, rfl⟩, Nat.le_refl _, Nat.lt_add_of_pos_right hd.leaves_length_pos,
              Nat.le_refl _⟩
          rw [pathsAt] at hp
          rcases List.mem_cons.mp hp with rfl | hp
          · exact ⟨List.pairwise_singleton _ _, List.forall_mem_singleton.mpr hhere⟩
          · obtain ⟨below, hb, rfl⟩ := List.mem_map.mp hp
            obtain ⟨hchain, hpairs⟩ := pathsAll_nested children start hc below hb
            have hnest : ∀ pair ∈ below,
                Nested (.nonterminal name, spanAt start (node (.nonterminal name) children)) pair :=
              fun pair hpair => (hpairs pair hpair).2
            exact ⟨List.pairwise_cons.mpr ⟨hnest, hchain⟩, List.forall_mem_cons.mpr ⟨hhere, hpairs⟩⟩

theorem pathsAll_nested : (ts : List Tree) → (start : Nat) →
    (∀ t ∈ ts, t.Derives g.ExpandsProperly) → ∀ path ∈ pathsAllAt start ts, path.Pairwise Nested ∧
      ∀ pair ∈ path, PathPair g start (start + (leavesAll ts).length) pair
  | [], _, _, _, hp => absurd hp List.not_mem_nil
  | t :: ts, start, hd, path, hp => by
      obtain ⟨ht, hts⟩ := List.forall_mem_cons.mp hd
      rw [leavesAll, List.length_append]
      rw [pathsAllAt] at hp
      rcases List.mem_append.mp hp with hp | hp
      · obtain ⟨hchain, hpairs⟩ := paths_nested t start ht path hp
        exact ⟨hchain, fun pair hpair => (hpairs pair hpair).mono (Nat.le_refl _) (by omega)⟩
      · obtain ⟨hchain, hpairs⟩ := pathsAll_nested ts _ hts path hp
        exact ⟨hchain, fun pair hpair => (hpairs pair hpair).mono (by omega) (by omega)⟩

end

/-! ### The height of a derivation without cycles -/

mutual

theorem exists_path_length_eq : (t : Tree) → (start : Nat) → 0 < t.height →
    ∃ path ∈ t.pathsAt start, path.length = t.height
  | leaf _, _, h => absurd h (Nat.lt_irrefl 0)
  | node label children, start, _ => by
      rw [pathsAt, height]
      by_cases h : 0 < heightAll children
      · obtain ⟨below, hb, hlen⟩ := exists_pathAll_length_eq children start h
        refine ⟨_, List.mem_cons_of_mem _ (List.mem_map.mpr ⟨below, hb, rfl⟩), ?_⟩
        rw [List.length_cons]
        omega
      · refine ⟨_, List.mem_cons_self, ?_⟩
        rw [List.length_singleton]
        omega

theorem exists_pathAll_length_eq : (ts : List Tree) → (start : Nat) → 0 < heightAll ts →
    ∃ path ∈ pathsAllAt start ts, path.length = heightAll ts
  | [], _, h => absurd h (Nat.lt_irrefl 0)
  | t :: ts, start, h => by
      rw [heightAll] at h ⊢
      rw [pathsAllAt]
      by_cases hle : heightAll ts ≤ t.height
      · obtain ⟨path, hp, hlen⟩ := exists_path_length_eq t start (by omega)
        exact ⟨path, List.mem_append_left _ hp, by omega⟩
      · obtain ⟨path, hp, hlen⟩ :=
          exists_pathAll_length_eq ts (start + t.leaves.length) (by omega)
        exact ⟨path, List.mem_append_right _ hp, by omega⟩

end

/-- The name in a pair, and the length of its span less one. -/
def nameAndLength (pair : Symbol × Span) : String × Nat :=
  (pair.1.text, pair.2.length - 1)

/-- Nested spans of one length are equal, so names and lengths tell the pairs of a path apart. -/
theorem eq_of_nameAndLength_eq {a b : Symbol × Span} {start stop : Nat} (hnest : Nested a b)
    (ha : PathPair g start stop a) (hb : PathPair g start stop b)
    (heq : nameAndLength a = nameAndLength b) : a = b := by
  obtain ⟨symbol, s⟩ := a
  obtain ⟨symbol', u⟩ := b
  obtain ⟨⟨m, -, hm⟩, -, hs, -⟩ := ha
  obtain ⟨⟨n, -, hn⟩, -⟩ := hb
  obtain ⟨hle, hlt, hge⟩ := hnest
  simp only [nameAndLength, Prod.mk.injEq, Span.length] at heq hm hn hs hle hlt hge
  obtain ⟨htext, hlen⟩ := heq
  subst hm hn
  have hspan : s = u := by
    cases s
    cases u
    simp only [Span.mk.injEq] at *
    omega
  rw [Prod.mk.injEq]
  exact ⟨congrArg Symbol.nonterminal htext, hspan⟩

/-- A path without repetition has at most one pair for each nonterminal and each length. -/
theorem path_length_le {path : List (Symbol × Span)} {start stop : Nat} (hnodup : path.Nodup)
    (hchain : path.Pairwise Nested) (hpairs : ∀ pair ∈ path, PathPair g start stop pair) :
    path.length ≤ g.rules.length * (stop - start) := by
  have hsizes : (path.map nameAndLength).Nodup := by
    rw [List.Nodup, List.pairwise_map]
    refine (List.Pairwise.and_mem.mp (hchain.and hnodup)).imp ?_
    rintro a b ⟨ha, hb, hnest, hne⟩ heq
    exact hne (eq_of_nameAndLength_eq hnest (hpairs a ha) (hpairs b hb) heq)
  have hsub : path.map nameAndLength ⊆ g.names ×ˢ List.range (stop - start) := by
    intro entry hentry
    obtain ⟨⟨symbol, span⟩, hmem, rfl⟩ := List.mem_map.mp hentry
    obtain ⟨⟨name, hname, hsym⟩, hstart, hlt, hstop⟩ := hpairs _ hmem
    simp only at hsym hstart hlt hstop
    subst hsym
    refine List.mem_product.mpr ⟨hname, List.mem_range.mpr ?_⟩
    simp only [Span.length]
    omega
  have hle := hsizes.length_le_of_subset hsub
  have hnames : g.names.length = g.rules.length := List.length_map _
  rwa [List.length_map, List.length_product, List.length_range, hnames] at hle

/-- A derivation without cycles is at most as high as there are nonterminals times tokens. -/
theorem height_le_of_avoids {t : Tree} (hd : t.Derives g.ExpandsProperly)
    (ha : Avoids above start t) : t.height ≤ g.rules.length * t.leaves.length := by
  by_cases h : 0 < t.height
  · obtain ⟨path, hp, hlen⟩ := exists_path_length_eq t start h
    obtain ⟨hchain, hpairs⟩ := paths_nested t start hd path hp
    have hle := path_length_le (ha path hp).1 hchain hpairs
    rwa [hlen, Nat.add_sub_cancel_left] at hle
  · omega

/-! ### Leaving cycles out -/

/-- Some derivation of the symbol over the span has at most the given number of nodes. -/
def DerivesWithin (g : Grammar) (tokens : List String) (nodes : Nat) (pair : Symbol × Span) : Prop :=
  ∃ t : Tree, t.root = pair.1 ∧ t.DerivesAt g tokens pair.2.start ∧
    t.spanAt pair.2.start = pair.2 ∧ t.internalNodes ≤ nodes

/-- What cutting cycles out of a tree with at most the given number of nodes leaves: a derivation of
the same symbol over the same span, free of cycles, no pair of which needs more nodes. -/
structure IsCut (g : Grammar) (tokens : List String) (nodes start : Nat) (t cut : Tree) : Prop where
  root_eq : cut.root = t.root
  length_eq : cut.leaves.length = t.leaves.length
  derives : cut.DerivesAt g tokens start
  paths : ∀ path ∈ cut.pathsAt start, path.Nodup ∧ ∀ pair ∈ path, DerivesWithin g tokens nodes pair

theorem internalNodes_le_of_mem {t : Tree} {ts : List Tree} (h : t ∈ ts) :
    t.internalNodes ≤ internalNodesAll ts := by
  induction ts with
  | nil => exact absurd h List.not_mem_nil
  | cons s ts ih =>
      rw [internalNodesAll]
      rcases List.mem_cons.mp h with rfl | h
      · exact Nat.le_add_right _ _
      · exact Nat.le_trans (ih h) (Nat.le_add_left _ _)

theorem DerivesWithin.mono {fewer nodes : Nat} {pair : Symbol × Span}
    (h : DerivesWithin g tokens fewer pair) (hle : fewer ≤ nodes) :
    DerivesWithin g tokens nodes pair := by
  obtain ⟨t, hroot, hd, hspan, hnodes⟩ := h
  exact ⟨t, hroot, hd, hspan, Nat.le_trans hnodes hle⟩

/-- A node over cut children is cut, when no tree with fewer nodes could take its place. -/
theorem isCut_node {nodes : Nat} {name : String} {children cuts : List Tree}
    (hd : DerivesAt g tokens start (node (.nonterminal name) children))
    (hnodes : (node (.nonterminal name) children).internalNodes ≤ nodes + 1)
    (hleast : ¬DerivesWithin g tokens nodes
      (.nonterminal name, spanAt start (node (.nonterminal name) children)))
    (hroots : cuts.map root = children.map root)
    (hlen : (leavesAll cuts).length = (leavesAll children).length)
    (hall : DerivesAllAt g tokens start cuts)
    (hpaths : ∀ path ∈ pathsAllAt start cuts, path.Nodup ∧
      ∀ pair ∈ path, DerivesWithin g tokens nodes pair) :
    IsCut g tokens (nodes + 1) start (node (.nonterminal name) children)
      (node (.nonterminal name) cuts) := by
  have hspan : spanAt start (node (.nonterminal name) cuts) =
      spanAt start (node (.nonterminal name) children) := by
    unfold spanAt
    rw [leaves, leaves, hlen]
  have hhere : DerivesWithin g tokens (nodes + 1)
      (.nonterminal name, spanAt start (node (.nonterminal name) children)) :=
    ⟨_, rfl, hd, rfl, hnodes⟩
  refine ⟨rfl, ?_, ?_, ?_⟩
  · rw [leaves, leaves, hlen]
  · exact derivesAt_node.mpr ⟨hroots ▸ (derivesAt_node.mp hd).1, hall⟩
  · intro path hp
    rw [pathsAt, hspan] at hp
    rcases List.mem_cons.mp hp with rfl | hp
    · exact ⟨List.pairwise_singleton _ _, List.forall_mem_singleton.mpr hhere⟩
    · obtain ⟨below, hb, rfl⟩ := List.mem_map.mp hp
      obtain ⟨hnodup, hpairs⟩ := hpaths below hb
      have hnot : (.nonterminal name, spanAt start (node (.nonterminal name) children)) ∉ below :=
        fun hmem => hleast (hpairs _ hmem)
      have hmore : ∀ pair ∈ below, DerivesWithin g tokens (nodes + 1) pair :=
        fun pair hpair => (hpairs pair hpair).mono (Nat.le_succ nodes)
      exact ⟨List.nodup_cons.mpr ⟨hnot, hnodup⟩, List.forall_mem_cons.mpr ⟨hhere, hmore⟩⟩

theorem exists_cutAll {nodes : Nat} : (ts : List Tree) → (start : Nat) →
    (∀ t ∈ ts, ∀ start, t.DerivesAt g tokens start → ∃ cut, IsCut g tokens nodes start t cut) →
    DerivesAllAt g tokens start ts →
    ∃ cuts, cuts.map root = ts.map root ∧ (leavesAll cuts).length = (leavesAll ts).length ∧
      DerivesAllAt g tokens start cuts ∧
      ∀ path ∈ pathsAllAt start cuts, path.Nodup ∧ ∀ pair ∈ path, DerivesWithin g tokens nodes pair
  | [], _, _, _ => ⟨[], rfl, rfl, derivesAllAt_nil, fun _ h => absurd h List.not_mem_nil⟩
  | t :: ts, start, hcut, hd => by
      obtain ⟨ht, hts⟩ := derivesAllAt_cons.mp hd
      obtain ⟨cut, hc⟩ := hcut t List.mem_cons_self start ht
      obtain ⟨cuts, hroots, hlen, hall, hpaths⟩ :=
        exists_cutAll ts _ (fun s hs => hcut s (List.mem_cons_of_mem _ hs)) hts
      refine ⟨cut :: cuts, ?_, ?_, ?_, ?_⟩
      · rw [List.map_cons, List.map_cons, hc.root_eq, hroots]
      · rw [leavesAll, leavesAll, List.length_append, List.length_append, hc.length_eq, hlen]
      · rw [derivesAllAt_cons, hc.length_eq]
        exact ⟨hc.derives, hall⟩
      · rw [pathsAllAt, List.forall_mem_append, hc.length_eq]
        exact ⟨hc.paths, hpaths⟩

/-- Cycles are cut out by replacing a tree by a smallest one over the same span, and then its children
likewise: the pairs below need fewer nodes, so the pair at the root is not among them. -/
theorem exists_cut (nodes : Nat) : ∀ (t : Tree) (start : Nat), t.DerivesAt g tokens start →
    t.internalNodes ≤ nodes → ∃ cut, IsCut g tokens nodes start t cut := by
  induction nodes with
  | zero =>
      intro t start hd hle
      cases t with
      | leaf text => exact ⟨.leaf text, rfl, rfl, hd, fun _ h => absurd h List.not_mem_nil⟩
      | node label children =>
          rw [internalNodes] at hle
          omega
  | succ nodes ih =>
      intro t start hd hle
      by_cases hsmaller : DerivesWithin g tokens nodes (t.root, t.spanAt start)
      · obtain ⟨s, hroot, hds, hspan, hnodes⟩ := hsmaller
        obtain ⟨cut, hc⟩ := ih s start hds hnodes
        have hlen : s.leaves.length = t.leaves.length := by
          have hstop := spanAt_eq_iff.mp hspan
          simp only [spanAt_start, spanAt_stop] at hstop
          omega
        refine ⟨cut, hc.root_eq.trans hroot, hc.length_eq.trans hlen, hc.derives, ?_⟩
        intro path hp
        obtain ⟨hnodup, hpairs⟩ := hc.paths path hp
        exact ⟨hnodup, fun pair hpair => (hpairs pair hpair).mono (Nat.le_succ nodes)⟩
      · cases hd.derives with
        | leaf text => exact ⟨.leaf text, rfl, rfl, hd, fun _ h => absurd h List.not_mem_nil⟩
        | node name children hexp hc =>
            have hchildren : ∀ child ∈ children, ∀ position, child.DerivesAt g tokens position →
                ∃ cut, IsCut g tokens nodes position child cut := by
              intro child hmem position hchild
              apply ih child position hchild
              have hchildle := internalNodes_le_of_mem hmem
              rw [internalNodes] at hle
              omega
            obtain ⟨cuts, hroots, hlen, hall, hpaths⟩ :=
              exists_cutAll children start hchildren (derivesAt_node.mp hd).2
            exact ⟨_, isCut_node hd hle hsmaller hroots hlen hall hpaths⟩

/-- **Leaving cycles out loses nothing**: what has a derivation has one without cycles. -/
theorem exists_avoids {t : Tree} (hd : t.DerivesAt g tokens start) :
    ∃ s : Tree, s.root = t.root ∧ s.leaves.length = t.leaves.length ∧
      s.DerivesAt g tokens start ∧ Avoids [] start s := by
  obtain ⟨s, hs⟩ := exists_cut t.internalNodes t start hd (Nat.le_refl _)
  refine ⟨s, hs.root_eq, hs.length_eq, hs.derives, fun path hp => ?_⟩
  exact ⟨(hs.paths path hp).1, List.disjoint_nil_right _⟩

end ParseForest.Tree
