import Mathlib.Logic.Relation
import ParseForest.Grammar.UnitChain
import ParseForest.Proofs.Derivation.Cycle

/-! # Without unit cycles every derivation is free of cycles

Two nodes on a path have the same span only if every node between them is the only child of the
one above: a sibling would have a leaf of its own.  So a nonterminal that is met again over its span
has come back to itself by single nonterminals (`Derives.paths_unitChain`), and where this cannot be no
derivation has a cycle (`cycleFree_of_unitAcyclic`). -/

namespace ParseForest

variable {g : Grammar}

theorem Grammar.unitAcyclic_of_rank (rank : String → Nat)
    (h : ∀ name child, g.UnitStep name child → rank child < rank name) : g.UnitAcyclic := by
  have hchain : ∀ name child, Relation.TransGen g.UnitStep name child → rank child < rank name := by
    intro name child hpath
    induction hpath with
    | single hstep => exact h _ _ hstep
    | tail _ hstep ih => exact Nat.lt_trans (h _ _ hstep) ih
  exact fun name hpath => Nat.lt_irrefl _ (hchain name name hpath)

theorem Grammar.NoEmpty.expandsProperly_eq (h : g.NoEmpty) : g.ExpandsProperly = g.Expands := by
  funext name alternative
  refine propext ⟨fun hexp => hexp.2, fun hexp => ⟨?_, hexp⟩⟩
  rintro rfl
  exact h name hexp

namespace Tree

theorem mem_pathsAllAt_iff {path : List (Symbol × Span)} {start : Nat} {ts : List Tree} :
    path ∈ pathsAllAt start ts ↔
      ∃ before t after, ts = before ++ t :: after ∧
        path ∈ t.pathsAt (start + (leavesAll before).length) := by
  induction ts generalizing start with
  | nil =>
      refine ⟨fun h => absurd h List.not_mem_nil, ?_⟩
      rintro ⟨before, t, after, hts, -⟩
      exact absurd hts.symm (List.append_ne_nil_of_right_ne_nil _ (List.cons_ne_nil _ _))
  | cons s ts ih =>
      rw [pathsAllAt, List.mem_append, ih]
      constructor
      · rintro (h | ⟨before, t, after, rfl, h⟩)
        · exact ⟨[], s, ts, rfl, h⟩
        · refine ⟨s :: before, t, after, rfl, ?_⟩
          rwa [leavesAll, List.length_append, ← Nat.add_assoc]
      · rintro ⟨before, t, after, hts, h⟩
        cases before with
        | nil =>
            obtain ⟨rfl, rfl⟩ := List.cons.inj hts
            exact Or.inl h
        | cons b before =>
            obtain ⟨rfl, rfl⟩ := List.cons.inj hts
            refine Or.inr ⟨before, t, after, rfl, ?_⟩
            rwa [leavesAll, List.length_append, ← Nat.add_assoc] at h

theorem eq_nil_of_leavesAll_length {ts : List Tree} (h : ∀ t ∈ ts, t.Derives g.ExpandsProperly)
    (hlen : (leavesAll ts).length = 0) : ts = [] := by
  cases ts with
  | nil => rfl
  | cons t ts =>
      have hpos := (h t List.mem_cons_self).leaves_length_pos
      rw [leavesAll, List.length_append] at hlen
      omega

/-- A pair below a node over the whole span of the node is reached by single nonterminals. -/
theorem transGen_of_below {name : String} {before after : List Tree} {child : Tree} {start : Nat}
    {below : List (Symbol × Span)} {pair : Symbol × Span}
    (hd : (node (.nonterminal name) (before ++ child :: after)).Derives g.ExpandsProperly)
    (hchain : ∀ pair ∈ below, pair.2 = spanAt (start + (leavesAll before).length) child →
      Relation.ReflTransGen g.UnitStep child.root.text pair.1.text)
    (hbelow : below ∈ child.pathsAt (start + (leavesAll before).length)) (hpair : pair ∈ below)
    (hspan : pair.2 = spanAt start (node (.nonterminal name) (before ++ child :: after))) :
    Relation.TransGen g.UnitStep name pair.1.text := by
  obtain ⟨hexp, hc⟩ := derives_node.mp hd
  obtain ⟨hbefore, hrest⟩ := List.forall_mem_append.mp hc
  obtain ⟨hchild, hafter⟩ := List.forall_mem_cons.mp hrest
  obtain ⟨-, -, hlt, hstop⟩ := (paths_nested child _ hchild below hbelow).2 pair hpair
  -- the child reaches from the start of the node to its end, so it stands alone
  have hlen : (leavesAll (before ++ child :: after)).length =
      (leavesAll before).length + (child.leaves.length + (leavesAll after).length) := by
    simp only [leavesAll_eq, List.flatMap_append, List.flatMap_cons, List.length_append]
  have hle := (paths_nested child _ hchild below hbelow).2 pair hpair |>.2.1
  rw [hspan, spanAt_start] at hle
  rw [hspan, spanAt_stop, leaves, hlen] at hstop
  obtain rfl := eq_nil_of_leavesAll_length hbefore (by omega)
  obtain rfl := eq_nil_of_leavesAll_length hafter (by omega)
  have hsame : pair.2 = spanAt (start + (leavesAll []).length) child := by
    rw [hspan]
    simp only [spanAt, leaves, leavesAll, List.nil_append, List.append_nil, List.length_nil,
      Nat.add_zero]
  cases hchild with
  | leaf text => exact absurd hbelow List.not_mem_nil
  | node childName children _ _ =>
      have hunit : g.UnitStep name childName := hexp.2
      exact .head' hunit (hchain pair hpair hsame)

/-- On a path of a derivation, one span is passed on by single nonterminals only. -/
theorem Derives.paths_unitChain {t : Tree} (h : t.Derives g.ExpandsProperly) :
    ∀ start, ∀ path ∈ t.pathsAt start,
      (∀ pair ∈ path, pair.2 = spanAt start t →
        Relation.ReflTransGen g.UnitStep t.root.text pair.1.text) ∧
      path.Pairwise fun a b => a.2 = b.2 → Relation.TransGen g.UnitStep a.1.text b.1.text := by
  induction h with
  | leaf text => exact fun _ _ hpath => absurd hpath List.not_mem_nil
  | node name children hexp hc ih =>
      intro start path hpath
      rw [pathsAt] at hpath
      rcases List.mem_cons.mp hpath with rfl | hpath
      · exact ⟨List.forall_mem_singleton.mpr fun _ => .refl, List.pairwise_singleton _ _⟩
      · obtain ⟨below, hbelow, rfl⟩ := List.mem_map.mp hpath
        obtain ⟨before, child, after, rfl, hin⟩ := mem_pathsAllAt_iff.mp hbelow
        have hmem : child ∈ before ++ child :: after :=
          List.mem_append_right _ List.mem_cons_self
        obtain ⟨hchain, hpairwise⟩ := ih child hmem _ below hin
        have hbelow : ∀ pair ∈ below, pair.2 = spanAt start (Tree.node (.nonterminal name)
            (before ++ child :: after)) → Relation.TransGen g.UnitStep name pair.1.text :=
          fun pair hpair hspan =>
            transGen_of_below (.node name _ hexp hc) hchain hin hpair hspan
        constructor
        · refine List.forall_mem_cons.mpr ⟨fun _ => .refl, fun pair hpair hspan => ?_⟩
          exact (hbelow pair hpair hspan).to_reflTransGen
        · exact List.pairwise_cons.mpr ⟨fun pair hpair hspan => hbelow pair hpair hspan.symm, hpairwise⟩

/-- **Where no chain of single nonterminals leads back, no derivation has a cycle.** -/
theorem cycleFree_of_unitAcyclic (hunit : g.UnitAcyclic) {t : Tree}
    (h : t.Derives g.ExpandsProperly) : t.CycleFree := by
  intro path hpath
  refine (h.paths_unitChain 0 path hpath).2.imp ?_
  rintro a b hchain rfl
  exact hunit _ (hchain rfl)

end Tree

end ParseForest
