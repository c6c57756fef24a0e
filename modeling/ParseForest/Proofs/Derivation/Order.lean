import Mathlib.Data.List.Lex
import ParseForest.Proofs.Derivation.Placed

/-! # The order of derivation trees is a strict total order

A node precedes another by the place of its alternative, by its boundaries or by the first child that
differs (`precedes_node_iff`).  No tree precedes itself (`Precedes.ne`), the order is transitive
(`Precedes.trans`), and two derivations of one symbol over one span are equal or in order one way or
the other (`comparable_of_derives`). -/

namespace ParseForest

/-! ### The first difference -/

/-- The first place where two lists differ is in order. -/
def FirstDiffer {α : Type} (R : α → α → Prop) (as bs : List α) : Prop :=
  ∃ before a b as' bs', as = before ++ a :: as' ∧ bs = before ++ b :: bs' ∧ R a b

namespace FirstDiffer

variable {α : Type} {R : α → α → Prop} {as bs : List α} {a b : α}

theorem head (h : R a b) : FirstDiffer R (a :: as) (b :: bs) :=
  ⟨[], a, b, as, bs, rfl, rfl, h⟩

theorem cons (h : FirstDiffer R as bs) (c : α) : FirstDiffer R (c :: as) (c :: bs) := by
  obtain ⟨before, a, b, as', bs', rfl, rfl, hab⟩ := h
  exact ⟨c :: before, a, b, as', bs', rfl, rfl, hab⟩

theorem cons_left (h : FirstDiffer R (a :: as) bs) :
    ∃ b bs', bs = b :: bs' ∧ (R a b ∨ a = b ∧ FirstDiffer R as bs') := by
  obtain ⟨before, x, y, as', bs', has, rfl, hxy⟩ := h
  cases before with
  | nil =>
      obtain ⟨rfl, rfl⟩ := List.cons.inj has
      exact ⟨y, bs', rfl, Or.inl hxy⟩
  | cons c before =>
      obtain ⟨rfl, rfl⟩ := List.cons.inj has
      exact ⟨a, before ++ y :: bs', rfl, Or.inr ⟨rfl, before, x, y, as', bs', rfl, rfl, hxy⟩⟩

/-- What differs later from a list differs from one that is before it, if the items that differ
there compose with all that follows. -/
theorem trans_at (hab : R a b) (htrans : ∀ c, R b c → R a c) {before as' bs' cs : List α}
    (h : FirstDiffer R (before ++ b :: bs') cs) : FirstDiffer R (before ++ a :: as') cs := by
  induction before generalizing cs with
  | nil =>
      obtain ⟨c, cs', rfl, hbc | ⟨rfl, -⟩⟩ := h.cons_left
      · exact head (htrans c hbc)
      · exact head hab
  | cons x before ih =>
      obtain ⟨c, cs', rfl, hxc | ⟨rfl, hrest⟩⟩ := h.cons_left
      · exact head hxc
      · exact (ih hrest).cons x

end FirstDiffer

namespace Tree

variable {g : Grammar} {name : String} {ss ts : List Tree}

/-! ### Boundaries and places -/

theorem boundaries_add (shift start : Nat) (ts : List Tree) :
    boundaries (shift + start) ts = (boundaries start ts).map (shift + ·) := by
  induction ts generalizing start with
  | nil => rfl
  | cons t ts ih => rw [boundaries, boundaries, List.map_cons, Nat.add_assoc, ih]

theorem map_add_lt_map_add_iff {shift : Nat} {as bs : List Nat} :
    as.map (shift + ·) < bs.map (shift + ·) ↔ as < bs := by
  induction as generalizing bs with
  | nil =>
      cases bs with
      | nil => exact Iff.rfl
      | cons b bs => exact ⟨fun _ => .nil, fun _ => .nil⟩
  | cons a as ih =>
      cases bs with
      | nil => exact ⟨fun h => absurd h (List.not_lt_nil _), fun h => absurd h (List.not_lt_nil _)⟩
      | cons b bs =>
          rw [List.map_cons, List.map_cons, List.cons_lt_cons_iff, List.cons_lt_cons_iff, ih,
            Nat.add_lt_add_iff_left, Nat.add_left_cancel_iff]

theorem boundaries_lt_iff (start : Nat) :
    boundaries 0 ss < boundaries 0 ts ↔ boundaries start ss < boundaries start ts := by
  have hshift := boundaries_add start 0
  rw [Nat.add_zero] at hshift
  rw [hshift, hshift, map_add_lt_map_add_iff]

theorem boundaries_eq_iff (start : Nat) :
    boundaries 0 ss = boundaries 0 ts ↔ boundaries start ss = boundaries start ts := by
  have hshift := boundaries_add start 0
  rw [Nat.add_zero] at hshift
  rw [hshift, hshift, List.map_inj_right fun _ _ => Nat.add_left_cancel]

theorem alternativePlace_eq {place : Nat} (hn : (g.alternatives name).Nodup)
    (h : (g.alternatives name)[place]? = some (ts.map root)) :
    alternativePlace g name ts = place := by
  obtain ⟨hlt, heq⟩ := List.getElem?_eq_some_iff.mp h
  unfold alternativePlace
  rw [← heq]
  exact hn.idxOf_getElem place hlt

theorem map_root_eq_of_alternativePlace_eq (h : g.ExpandsProperly name (ss.map root))
    (heq : alternativePlace g name ss = alternativePlace g name ts) : ss.map root = ts.map root :=
  (List.idxOf_inj h.2).mp heq

/-! ### The order -/

/-- The children of one node come before those of another with the same label: their alternative does,
or it is the same and their boundaries do, or these are the same too and the first child does that
differs. -/
def ChildrenPrecede (g : Grammar) (name : String) (ss ts : List Tree) : Prop :=
  alternativePlace g name ss < alternativePlace g name ts ∨
    alternativePlace g name ss = alternativePlace g name ts ∧
      (boundaries 0 ss < boundaries 0 ts ∨
        boundaries 0 ss = boundaries 0 ts ∧ FirstDiffer (Precedes g) ss ts)

theorem ChildrenPrecede.precedes (h : ChildrenPrecede g name ss ts) :
    Precedes g (node (.nonterminal name) ss) (node (.nonterminal name) ts) := by
  rcases h with hlt | ⟨hplace, hlt | ⟨hb, before, s, t, ss', ts', rfl, rfl, hst⟩⟩
  · exact .alternative hlt
  · exact .boundary hplace hlt
  · exact .child hplace hb hst

theorem Precedes.exists_children {s t : Tree} (h : Precedes g s t) :
    ∃ name ss ts, s = node (.nonterminal name) ss ∧ t = node (.nonterminal name) ts ∧
      ChildrenPrecede g name ss ts := by
  cases h with
  | alternative hlt => exact ⟨_, _, _, rfl, rfl, Or.inl hlt⟩
  | boundary hplace hlt => exact ⟨_, _, _, rfl, rfl, Or.inr ⟨hplace, Or.inl hlt⟩⟩
  | child hplace hb hst =>
      exact ⟨_, _, _, rfl, rfl, Or.inr ⟨hplace, Or.inr ⟨hb, _, _, _, _, _, rfl, rfl, hst⟩⟩⟩

theorem Precedes.of_node {t : Tree} (h : Precedes g (node (.nonterminal name) ss) t) :
    ∃ ts, t = node (.nonterminal name) ts ∧ ChildrenPrecede g name ss ts := by
  obtain ⟨_, _, ts, hs, rfl, hst⟩ := h.exists_children
  obtain ⟨hname, rfl⟩ := Tree.node.inj hs
  obtain rfl := Symbol.nonterminal.inj hname
  exact ⟨ts, rfl, hst⟩

theorem precedes_node_iff :
    Precedes g (node (.nonterminal name) ss) (node (.nonterminal name) ts) ↔
      ChildrenPrecede g name ss ts := by
  refine ⟨fun h => ?_, ChildrenPrecede.precedes⟩
  obtain ⟨_, ht, hst⟩ := h.of_node
  obtain ⟨-, rfl⟩ := Tree.node.inj ht
  exact hst

theorem Precedes.ne {s t : Tree} (h : Precedes g s t) : s ≠ t := by
  induction h with
  | alternative hlt =>
      intro he
      obtain ⟨-, rfl⟩ := Tree.node.inj he
      exact absurd hlt (Nat.lt_irrefl _)
  | boundary _ hlt =>
      intro he
      obtain ⟨-, rfl⟩ := Tree.node.inj he
      exact absurd hlt (List.lt_irrefl _)
  | child _ _ _ ih =>
      intro he
      obtain ⟨-, he⟩ := Tree.node.inj he
      exact ih (List.cons.inj (List.append_cancel_left he)).1

/-- What comes before a tree comes before all that comes after it.  Where both steps are decided by a
child, the earlier of the two decides, and where it is the same child, the children compose. -/
theorem Precedes.trans {s t u : Tree} (h : Precedes g s t) (h' : Precedes g t u) :
    Precedes g s u := by
  induction h generalizing u with
  | alternative hlt =>
      obtain ⟨us, rfl, htu⟩ := h'.of_node
      rcases htu with hlt' | ⟨hplace, -⟩
      · exact .alternative (Nat.lt_trans hlt hlt')
      · exact .alternative (hplace ▸ hlt)
  | boundary hplace hlt =>
      obtain ⟨us, rfl, htu⟩ := h'.of_node
      rcases htu with hlt' | ⟨hplace', hlt' | ⟨hb, -⟩⟩
      · exact .alternative (hplace ▸ hlt')
      · exact .boundary (hplace.trans hplace') (List.lt_trans hlt hlt')
      · exact .boundary (hplace.trans hplace') (hb ▸ hlt)
  | child hplace hb hst ih =>
      obtain ⟨us, rfl, htu⟩ := h'.of_node
      rcases htu with hlt' | ⟨hplace', hlt' | ⟨hb', hfirst⟩⟩
      · exact .alternative (hplace ▸ hlt')
      · exact .boundary (hplace.trans hplace') (hb ▸ hlt')
      · refine ChildrenPrecede.precedes (Or.inr ⟨hplace.trans hplace', Or.inr ⟨hb.trans hb', ?_⟩⟩)
        exact hfirst.trans_at hst fun _ => ih

theorem Precedes.asymm {s t : Tree} (h : Precedes g s t) : ¬Precedes g t s :=
  fun h' => (h.trans h').ne rfl

/-! ### Any two derivations are in order -/

/-- Two trees are the same or in order one way or the other. -/
def Comparable (g : Grammar) (s t : Tree) : Prop :=
  s = t ∨ Precedes g s t ∨ Precedes g t s

theorem boundaries_cons_inj {start : Nat} {s t : Tree} :
    boundaries start (s :: ss) = boundaries start (t :: ts) ↔
      s.leaves.length = t.leaves.length ∧
        boundaries (start + s.leaves.length) ss = boundaries (start + s.leaves.length) ts := by
  obtain ⟨rest, hrest⟩ := boundaries_eq_cons (start + t.leaves.length) ts
  have ht : boundaries start (t :: ts) = start :: (start + t.leaves.length) :: rest := by
    rw [boundaries, hrest]
  rw [ht, boundaries_cons_eq_iff, Nat.add_left_cancel_iff]
  refine and_congr_right fun hlen => ?_
  rw [hlen, hrest]

/-- Rows of children with the same roots and the same boundaries are the same, or the first children
that differ are in order. -/
theorem eq_or_firstDiffer {start : Nat} (hroots : ss.map root = ts.map root)
    (hb : boundaries start ss = boundaries start ts)
    (hcompare : ∀ s ∈ ss, ∀ t ∈ ts, s.root = t.root → s.leaves.length = t.leaves.length →
      Comparable g s t) :
    ss = ts ∨ FirstDiffer (Precedes g) ss ts ∨ FirstDiffer (Precedes g) ts ss := by
  induction ss generalizing ts start with
  | nil => exact Or.inl (List.map_eq_nil_iff.mp hroots.symm).symm
  | cons s ss ih =>
      cases ts with
      | nil => exact absurd hroots (List.cons_ne_nil _ _)
      | cons t ts =>
          rw [List.map_cons, List.map_cons, List.cons.injEq] at hroots
          obtain ⟨hlen, hrest⟩ := boundaries_cons_inj.mp hb
          rcases hcompare s List.mem_cons_self t List.mem_cons_self hroots.1 hlen with
            rfl | hst | hts
          · have hlater : ∀ s ∈ ss, ∀ t ∈ ts, s.root = t.root →
                s.leaves.length = t.leaves.length → Comparable g s t := fun s hs t ht =>
              hcompare s (List.mem_cons_of_mem _ hs) t (List.mem_cons_of_mem _ ht)
            rcases ih hroots.2 hrest hlater with rfl | h | h
            · exact Or.inl rfl
            · exact Or.inr (Or.inl (h.cons s))
            · exact Or.inr (Or.inr (h.cons s))
          · exact Or.inr (Or.inl (.head hst))
          · exact Or.inr (Or.inr (.head hts))

/-- **The order is total** on the derivations of one symbol over one span. -/
theorem comparable_of_derives {s t : Tree} (hs : s.Derives g.ExpandsProperly)
    (ht : t.Derives g.ExpandsProperly) (hroot : s.root = t.root)
    (hlen : s.leaves.length = t.leaves.length) : Comparable g s t := by
  induction hs generalizing t with
  | leaf text => exact Or.inl (ht.eq_leaf hroot.symm).symm
  | node name ss hexp _ ih =>
      obtain ⟨ts, rfl⟩ := ht.eq_node hroot.symm
      unfold Comparable
      rw [precedes_node_iff, precedes_node_iff]
      rcases Nat.lt_trichotomy (alternativePlace g name ss) (alternativePlace g name ts) with
        hlt | hplace | hgt
      · exact Or.inr (Or.inl (Or.inl hlt))
      · have hroots := map_root_eq_of_alternativePlace_eq hexp hplace
        rcases lt_trichotomy (boundaries 0 ss) (boundaries 0 ts) with hlt | hb | hgt
        · exact Or.inr (Or.inl (Or.inr ⟨hplace, Or.inl hlt⟩))
        · have hchildren := (derives_node.mp ht).2
          have hcompare : ∀ s ∈ ss, ∀ t ∈ ts, s.root = t.root →
              s.leaves.length = t.leaves.length → Comparable g s t := fun s hs t ht =>
            ih s hs (hchildren t ht)
          rcases eq_or_firstDiffer hroots hb hcompare with rfl | h | h
          · exact Or.inl rfl
          · exact Or.inr (Or.inl (Or.inr ⟨hplace, Or.inr ⟨hb, h⟩⟩))
          · exact Or.inr (Or.inr (Or.inr ⟨hplace.symm, Or.inr ⟨hb.symm, h⟩⟩))
        · exact Or.inr (Or.inr (Or.inr ⟨hplace.symm, Or.inl hgt⟩))
      · exact Or.inr (Or.inr (Or.inl hgt))

end Tree

end ParseForest
