import Mathlib.Data.Finset.Card
import Mathlib.Data.List.Forall2
import Mathlib.Order.Bounds.Image
import Mathlib.Order.Lattice.Nat
import ParseForest.Proofs.Derivation.Placed
import ParseForest.Proofs.Grammar.Rules

/-! # Least heights of derivation trees

The derivation trees of a symbol are the generator's: an alternative may be empty.  A least tree of a
row of symbols has a least tree of each (`leastRowHeight_cons`), and a least tree of a nonterminal
is a node over a least row of one of its alternatives (`leastHeight_nonterminal`).

A least height skips none: below a node of least height `h + 1` stands a symbol of least height
`h` (`exists_leastHeight_eq`).  So the nonterminals on the way down are all different, and no least
height exceeds the number of rules (`LeastHeight.le_length_rules`). -/

namespace ParseForest.Grammar

variable {g : Grammar} {name : String} {symbol : Symbol} {symbols : List Symbol}

/-! ### The derivation trees of a symbol -/

/-- The derivation trees of a symbol. -/
def derivationTrees (g : Grammar) (symbol : Symbol) : Set Tree :=
  {t | t.root = symbol ∧ t.Derives g.Expands}

/-- The rows of derivation trees, one for each symbol. -/
def derivationRows (g : Grammar) (symbols : List Symbol) : Set (List Tree) :=
  {ts | ts.map Tree.root = symbols ∧ ∀ t ∈ ts, t.Derives g.Expands}

theorem derivationTrees_terminal (text : String) :
    g.derivationTrees (.terminal text) = {.leaf text} := by
  ext t
  constructor
  · rintro ⟨hroot, hd⟩
    exact hd.eq_leaf hroot
  · rintro rfl
    exact ⟨rfl, .leaf text⟩

theorem mem_derivationTrees_nonterminal {t : Tree} :
    t ∈ g.derivationTrees (.nonterminal name) ↔
      ∃ alternative ∈ g.alternatives name, ∃ children ∈ g.derivationRows alternative,
        t = .node (.nonterminal name) children := by
  constructor
  · rintro ⟨hroot, hd⟩
    obtain ⟨children, rfl⟩ := hd.eq_node hroot
    obtain ⟨hexpands, hchildren⟩ := Tree.derives_node.mp hd
    exact ⟨_, hexpands, children, ⟨rfl, hchildren⟩, rfl⟩
  · rintro ⟨_, hexpands, children, ⟨rfl, hchildren⟩, rfl⟩
    exact ⟨rfl, .node name children hexpands hchildren⟩

theorem derivationRows_nil : g.derivationRows [] = {[]} := by
  ext ts
  constructor
  · exact fun h => List.map_eq_nil_iff.mp h.1
  · rintro rfl
    exact ⟨rfl, fun t ht => absurd ht List.not_mem_nil⟩

theorem mem_derivationRows_cons {ts : List Tree} :
    ts ∈ g.derivationRows (symbol :: symbols) ↔
      ∃ t ∈ g.derivationTrees symbol, ∃ rest ∈ g.derivationRows symbols, ts = t :: rest := by
  constructor
  · rintro ⟨hroots, hd⟩
    obtain ⟨t, rest, rfl, hroot, hrest⟩ := List.map_eq_cons_iff.mp hroots
    obtain ⟨ht, hds⟩ := List.forall_mem_cons.mp hd
    exact ⟨t, ⟨hroot, ht⟩, rest, ⟨hrest, hds⟩, rfl⟩
  · rintro ⟨t, ⟨rfl, ht⟩, rest, ⟨rfl, hds⟩, rfl⟩
    exact ⟨rfl, List.forall_mem_cons.mpr ⟨ht, hds⟩⟩

theorem forall₂_derivationTrees_iff {ts : List Tree} {bound : Nat} :
    List.Forall₂ (fun symbol t => t ∈ g.derivationTrees symbol ∧ t.height ≤ bound) symbols ts ↔
      ts ∈ g.derivationRows symbols ∧ Tree.heightAll ts ≤ bound := by
  induction symbols generalizing ts with
  | nil =>
      rw [List.forall₂_nil_left_iff, derivationRows_nil, Set.mem_singleton_iff]
      exact ⟨fun h => ⟨h, h ▸ Nat.zero_le bound⟩, fun h => h.1⟩
  | cons symbol symbols ih =>
      rw [List.forall₂_cons_left_iff, mem_derivationRows_cons]
      constructor
      · rintro ⟨t, rest, ⟨ht, hheight⟩, hrest, rfl⟩
        obtain ⟨hrow, hheights⟩ := ih.mp hrest
        exact ⟨⟨t, ht, rest, hrow, rfl⟩, Nat.max_le.mpr ⟨hheight, hheights⟩⟩
      · rintro ⟨⟨t, ht, rest, hrow, rfl⟩, hle⟩
        obtain ⟨hheight, hheights⟩ := Nat.max_le.mp hle
        exact ⟨t, rest, ⟨ht, hheight⟩, ih.mpr ⟨hrow, hheights⟩, rfl⟩

/-! ### Least heights -/

/-- The least height of a derivation tree of a symbol. -/
def LeastHeight (g : Grammar) (symbol : Symbol) (height : Nat) : Prop :=
  IsLeast (Tree.height '' g.derivationTrees symbol) height

/-- The least height of a row of derivation trees. -/
def LeastRowHeight (g : Grammar) (symbols : List Symbol) (height : Nat) : Prop :=
  IsLeast (Tree.heightAll '' g.derivationRows symbols) height

theorem exists_leastHeight_le {t : Tree} (h : t ∈ g.derivationTrees symbol) :
    ∃ least ≤ t.height, g.LeastHeight symbol least := by
  have hmem : t.height ∈ Tree.height '' g.derivationTrees symbol := ⟨t, h, rfl⟩
  have hleast := isLeast_csInf ⟨_, hmem⟩
  exact ⟨_, hleast.2 hmem, hleast⟩

theorem nonempty_derivationTrees_iff :
    (g.derivationTrees symbol).Nonempty ↔ ∃ least, g.LeastHeight symbol least := by
  constructor
  · rintro ⟨t, ht⟩
    obtain ⟨least, -, hleast⟩ := exists_leastHeight_le ht
    exact ⟨least, hleast⟩
  · rintro ⟨least, hleast⟩
    exact hleast.nonempty.of_image

theorem exists_leastRowHeight_le {ts : List Tree} (h : ts ∈ g.derivationRows symbols) :
    ∃ least ≤ Tree.heightAll ts, g.LeastRowHeight symbols least := by
  have hmem : Tree.heightAll ts ∈ Tree.heightAll '' g.derivationRows symbols := ⟨ts, h, rfl⟩
  have hleast := isLeast_csInf ⟨_, hmem⟩
  exact ⟨_, hleast.2 hmem, hleast⟩

theorem leastHeight_terminal {text : String} {height : Nat} :
    g.LeastHeight (.terminal text) height ↔ height = 0 := by
  unfold LeastHeight
  rw [derivationTrees_terminal, Set.image_singleton]
  exact ⟨fun h => h.unique isLeast_singleton, fun h => h ▸ isLeast_singleton⟩

theorem leastRowHeight_nil {height : Nat} : g.LeastRowHeight [] height ↔ height = 0 := by
  unfold LeastRowHeight
  rw [derivationRows_nil, Set.image_singleton]
  exact ⟨fun h => h.unique isLeast_singleton, fun h => h ▸ isLeast_singleton⟩

theorem image_heightAll_cons :
    Tree.heightAll '' g.derivationRows (symbol :: symbols) =
      Set.image2 max (Tree.height '' g.derivationTrees symbol)
        (Tree.heightAll '' g.derivationRows symbols) := by
  ext height
  rw [Set.image2_image_left, Set.image2_image_right]
  constructor
  · rintro ⟨ts, hts, rfl⟩
    obtain ⟨t, ht, rest, hrest, rfl⟩ := mem_derivationRows_cons.mp hts
    exact ⟨t, ht, rest, hrest, rfl⟩
  · rintro ⟨t, ht, rest, hrest, rfl⟩
    exact ⟨t :: rest, mem_derivationRows_cons.mpr ⟨t, ht, rest, hrest, rfl⟩, rfl⟩

theorem leastRowHeight_cons {height : Nat} :
    g.LeastRowHeight (symbol :: symbols) height ↔
      ∃ first, g.LeastHeight symbol first ∧
        ∃ rest, g.LeastRowHeight symbols rest ∧ height = max first rest := by
  have hmax : ∀ {first rest : Nat}, g.LeastHeight symbol first → g.LeastRowHeight symbols rest →
      g.LeastRowHeight (symbol :: symbols) (max first rest) := by
    intro first rest hfirst hrest
    unfold LeastRowHeight
    rw [image_heightAll_cons]
    exact hfirst.image2 (fun _ _ _ h => max_le_max_right _ h) (fun _ _ _ h => max_le_max_left _ h)
      hrest
  constructor
  · intro h
    obtain ⟨row, hrow, -⟩ := h.1
    obtain ⟨t, ht, ts, hts, rfl⟩ := mem_derivationRows_cons.mp hrow
    obtain ⟨first, -, hfirst⟩ := exists_leastHeight_le ht
    obtain ⟨rest, -, hrest⟩ := exists_leastRowHeight_le hts
    exact ⟨first, hfirst, rest, hrest, h.unique (hmax hfirst hrest)⟩
  · rintro ⟨first, hfirst, rest, hrest, rfl⟩
    exact hmax hfirst hrest

/-- A least tree of a nonterminal is a node over a least row of some alternative, and no alternative
has a lower one. -/
theorem leastHeight_nonterminal {height : Nat} :
    g.LeastHeight (.nonterminal name) height ↔
      (∃ alternative ∈ g.alternatives name, ∃ below,
        g.LeastRowHeight alternative below ∧ height = below + 1) ∧
      ∀ alternative ∈ g.alternatives name, ∀ below,
        g.LeastRowHeight alternative below → height ≤ below + 1 := by
  constructor
  · rintro ⟨⟨t, ht, rfl⟩, hle⟩
    have hbelow : ∀ alternative ∈ g.alternatives name, ∀ below,
        g.LeastRowHeight alternative below → t.height ≤ below + 1 := by
      rintro alternative hexpands _ ⟨⟨row, hrow, rfl⟩, -⟩
      have hnode : Tree.node (.nonterminal name) row ∈ g.derivationTrees (.nonterminal name) :=
        mem_derivationTrees_nonterminal.mpr ⟨alternative, hexpands, row, hrow, rfl⟩
      rw [Nat.add_comm]
      exact hle ⟨_, hnode, rfl⟩
    obtain ⟨alternative, hexpands, children, hrow, rfl⟩ := mem_derivationTrees_nonterminal.mp ht
    obtain ⟨below, hbelow_le, hleast⟩ := exists_leastRowHeight_le hrow
    refine ⟨⟨alternative, hexpands, below, hleast, ?_⟩, hbelow⟩
    have hge := hbelow alternative hexpands below hleast
    rw [Tree.height] at hge ⊢
    omega
  · rintro ⟨⟨alternative, hexpands, below, ⟨⟨row, hrow, rfl⟩, -⟩, rfl⟩, hle⟩
    constructor
    · exact ⟨.node (.nonterminal name) row,
        mem_derivationTrees_nonterminal.mpr ⟨alternative, hexpands, row, hrow, rfl⟩,
        Nat.add_comm _ _⟩
    · rintro _ ⟨t, ht, rfl⟩
      obtain ⟨other, hother, children, hchildren, rfl⟩ := mem_derivationTrees_nonterminal.mp ht
      obtain ⟨least, hleast_le, hleast⟩ := exists_leastRowHeight_le hchildren
      have hge := hle other hother least hleast
      rw [Tree.height]
      omega

theorem LeastHeight.pos {height : Nat} (h : g.LeastHeight (.nonterminal name) height) :
    0 < height := by
  obtain ⟨⟨alternative, -, below, -, heq⟩, -⟩ := leastHeight_nonterminal.mp h
  omega

theorem LeastHeight.mem_names {height : Nat} (h : g.LeastHeight (.nonterminal name) height) :
    name ∈ g.names := by
  obtain ⟨⟨alternative, hexpands, -⟩, -⟩ := leastHeight_nonterminal.mp h
  exact mem_names_of_expands hexpands

theorem LeastRowHeight.exists_le {height : Nat} (h : g.LeastRowHeight symbols height) :
    ∀ symbol ∈ symbols, ∃ least ≤ height, g.LeastHeight symbol least := by
  induction symbols generalizing height with
  | nil => exact fun symbol hmem => absurd hmem List.not_mem_nil
  | cons symbol symbols ih =>
      obtain ⟨first, hfirst, rest, hrest, rfl⟩ := leastRowHeight_cons.mp h
      refine List.forall_mem_cons.mpr ⟨⟨first, Nat.le_max_left first rest, hfirst⟩, ?_⟩
      intro child hmem
      obtain ⟨least, hle, hleast⟩ := ih hrest child hmem
      exact ⟨least, hle.trans (Nat.le_max_right first rest), hleast⟩

/-! ### No least height is skipped -/

theorem LeastRowHeight.exists_mem {height : Nat} (h : g.LeastRowHeight symbols height)
    (hpos : 0 < height) : ∃ symbol ∈ symbols, g.LeastHeight symbol height := by
  induction symbols generalizing height with
  | nil => exact absurd (leastRowHeight_nil.mp h) (Nat.ne_of_gt hpos)
  | cons symbol symbols ih =>
      obtain ⟨first, hfirst, rest, hrest, rfl⟩ := leastRowHeight_cons.mp h
      rcases Nat.le_total rest first with hle | hle
      · rw [max_eq_left hle] at hpos ⊢
        exact ⟨symbol, List.mem_cons_self, hfirst⟩
      · rw [max_eq_right hle] at hpos ⊢
        obtain ⟨child, hmem, hchild⟩ := ih hrest hpos
        exact ⟨child, List.mem_cons_of_mem _ hmem, hchild⟩

/-- Every height from one up to a least height is the least of some nonterminal with a rule. -/
theorem exists_leastHeight_eq {height : Nat} (h : g.LeastHeight (.nonterminal name) height)
    {lower : Nat} (hpos : 0 < lower) (hle : lower ≤ height) :
    ∃ child ∈ g.names, g.LeastHeight (.nonterminal child) lower := by
  induction height generalizing name with
  | zero => omega
  | succ height ih =>
      obtain ⟨⟨alternative, -, below, hrow, heq⟩, -⟩ := leastHeight_nonterminal.mp h
      obtain rfl := Nat.succ.inj heq
      rcases Nat.lt_or_eq_of_le hle with hlt | rfl
      · obtain ⟨symbol, -, hsymbol⟩ := hrow.exists_mem (by omega)
        cases symbol with
        | terminal text =>
            have hzero := leastHeight_terminal.mp hsymbol
            omega
        | nonterminal child => exact ih hsymbol (by omega)
      · exact ⟨name, h.mem_names, h⟩

/-- No least height exceeds the number of rules. -/
theorem LeastHeight.le_length_rules {height : Nat}
    (h : g.LeastHeight (.nonterminal name) height) : height ≤ g.rules.length := by
  have hattained : ∀ lower ∈ Finset.Icc 1 height,
      ∃ child ∈ g.names, g.LeastHeight (.nonterminal child) lower := by
    intro lower hlower
    obtain ⟨hpos, hle⟩ := Finset.mem_Icc.mp hlower
    exact exists_leastHeight_eq h hpos hle
  choose! child hchild hleast using hattained
  have hinj : Set.InjOn child (Finset.Icc 1 height) := by
    intro a ha b hb heq
    exact (hleast a ha).unique (heq ▸ hleast b hb)
  have hcard : (Finset.Icc 1 height).card ≤ g.names.toFinset.card :=
    Finset.card_le_card_of_injOn child (fun a ha => List.mem_toFinset.mpr (hchild a ha)) hinj
  rw [Nat.card_Icc, Nat.add_sub_cancel] at hcard
  calc height ≤ g.names.toFinset.card := hcard
    _ ≤ g.names.length := List.toFinset_card_le _
    _ = g.rules.length := List.length_map _

end ParseForest.Grammar
