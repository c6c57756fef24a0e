import ParseForest.Derivation.Order
import ParseForest.Derivation.Valid
import ParseForest.Tree.Position

/-! # Derivations in their place

A derivation is placed at a position of the input when its leaves are the tokens from there on
(`Tree.DerivesAt`).  Neighbouring trees are placed one behind the other (`Tree.DerivesAllAt`), so a
node is placed exactly when its children are and expand it (`derivesAt_node`).  No alternative
used is empty, so a placed derivation covers a span with at least one token, inside the input.
`Grammar.DerivesOver` says that a symbol has a derivation over a span. -/

namespace ParseForest

/-- The tokens of a span. -/
def Span.slice (span : Span) (tokens : List String) : List String :=
  (tokens.take span.stop).drop span.start

theorem Span.slice_whole (tokens : List String) : slice ⟨0, tokens.length⟩ tokens = tokens := by
  unfold slice
  rw [List.take_length, List.drop_zero]

namespace Tree

variable {g : Grammar} {tokens : List String} {start : Nat}

/-- The tree is a derivation without empty alternatives of the tokens from `start` on. -/
structure DerivesAt (g : Grammar) (tokens : List String) (start : Nat) (t : Tree) : Prop where
  derives : t.Derives g.ExpandsProperly
  leaves_prefix : t.leaves <+: tokens.drop start

/-- The trees are derivations that stand one behind the other from `start` on. -/
structure DerivesAllAt (g : Grammar) (tokens : List String) (start : Nat) (ts : List Tree) : Prop where
  derives : ∀ t ∈ ts, t.Derives g.ExpandsProperly
  leaves_prefix : leavesAll ts <+: tokens.drop start

theorem Derives.of_proper {t : Tree} (h : t.Derives g.ExpandsProperly) : t.Derives g.Expands := by
  induction h with
  | leaf text => exact .leaf text
  | node name children hexpands _ ih => exact .node name children hexpands.2 ih

theorem Derives.of_mem_subtrees {expands : String → Alternative → Prop} {t : Tree}
    (h : t.Derives expands) : ∀ u ∈ t.subtrees, u.Derives expands := by
  induction h with
  | leaf text => exact List.forall_mem_singleton.mpr (.leaf text)
  | node name children hexpands hchildren ih =>
      exact forall_mem_subtrees_node.mpr ⟨.node name children hexpands hchildren, ih⟩

/-! ### Leaves -/

theorem append_prefix_drop_iff {a b l : List String} {n : Nat} :
    a ++ b <+: l.drop n ↔ a <+: l.drop n ∧ b <+: l.drop (n + a.length) := by
  constructor
  · rintro ⟨r, hr⟩
    rw [List.append_assoc] at hr
    refine ⟨⟨b ++ r, hr⟩, ⟨r, ?_⟩⟩
    rw [← List.drop_drop, ← hr, List.drop_left]
  · rintro ⟨⟨r, hr⟩, ⟨s, hs⟩⟩
    rw [← List.drop_drop, ← hr, List.drop_left] at hs
    exact ⟨s, by rw [List.append_assoc, hs, hr]⟩

theorem Derives.leaves_ne_nil {t : Tree} (h : t.Derives g.ExpandsProperly) : t.leaves ≠ [] := by
  induction h with
  | leaf text => exact List.cons_ne_nil _ _
  | node name children hexp _ ih =>
      cases children with
      | nil => exact absurd rfl hexp.1
      | cons child rest =>
          rw [leaves, leavesAll]
          intro h
          exact ih child List.mem_cons_self (List.append_eq_nil_iff.mp h).1

theorem Derives.leaves_length_pos {t : Tree} (h : t.Derives g.ExpandsProperly) :
    0 < t.leaves.length :=
  List.length_pos_iff.mpr h.leaves_ne_nil

/-! ### Placing trees side by side -/

theorem derivesAllAt_nil : DerivesAllAt g tokens start [] :=
  ⟨fun _ h => absurd h List.not_mem_nil, List.nil_prefix⟩

theorem derivesAllAt_cons {t : Tree} {ts : List Tree} :
    DerivesAllAt g tokens start (t :: ts) ↔
      DerivesAt g tokens start t ∧ DerivesAllAt g tokens (start + t.leaves.length) ts := by
  constructor
  · intro h
    obtain ⟨ht, hts⟩ := append_prefix_drop_iff.mp h.leaves_prefix
    exact ⟨⟨h.derives t List.mem_cons_self, ht⟩,
      ⟨fun s hs => h.derives s (List.mem_cons_of_mem _ hs), hts⟩⟩
  · rintro ⟨ht, hts⟩
    refine ⟨fun s hs => ?_, append_prefix_drop_iff.mpr ⟨ht.leaves_prefix, hts.leaves_prefix⟩⟩
    rcases List.mem_cons.mp hs with rfl | hs
    · exact ht.derives
    · exact hts.derives s hs

theorem derivesAt_leaf {text : String} :
    DerivesAt g tokens start (leaf text) ↔ tokens[start]? = some text := by
  constructor
  · rintro ⟨-, r, hr⟩
    rw [← List.head?_drop, ← hr]
    rfl
  · intro h
    rw [← List.head?_drop, List.head?_eq_some_iff] at h
    obtain ⟨rest, hrest⟩ := h
    exact ⟨.leaf text, rest, hrest.symm⟩

theorem derivesAt_node {name : String} {children : List Tree} :
    DerivesAt g tokens start (node (.nonterminal name) children) ↔
      g.ExpandsProperly name (children.map root) ∧ DerivesAllAt g tokens start children := by
  constructor
  · rintro ⟨hd, hp⟩
    obtain ⟨hexp, hc⟩ := derives_node.mp hd
    exact ⟨hexp, hc, hp⟩
  · rintro ⟨hexp, hc, hp⟩
    exact ⟨derives_node.mpr ⟨hexp, hc⟩, hp⟩

theorem Derives.eq_leaf {expands : String → Alternative → Prop} {t : Tree} {text : String}
    (h : t.Derives expands) (hr : t.root = .terminal text) : t = Tree.leaf text := by
  cases h with
  | leaf text' => rw [Symbol.terminal.inj hr]
  | node name children _ _ => exact absurd hr Symbol.noConfusion

theorem Derives.eq_node {expands : String → Alternative → Prop} {t : Tree} {name : String}
    (h : t.Derives expands) (hr : t.root = .nonterminal name) :
    ∃ children, t = Tree.node (.nonterminal name) children := by
  cases h with
  | leaf text => exact absurd hr Symbol.noConfusion
  | node name' children _ _ => exact ⟨children, by rw [Symbol.nonterminal.inj hr]⟩

/-! ### Boundaries between neighbours -/

theorem boundaries_eq_cons (start : Nat) (ts : List Tree) :
    ∃ rest, boundaries start ts = start :: rest := by
  cases ts with
  | nil => exact ⟨[], rfl⟩
  | cons t ts => exact ⟨_, rfl⟩

theorem boundaries_cons_eq_iff {t : Tree} {ts : List Tree} {boundary : Nat} {rest : List Nat} :
    boundaries start (t :: ts) = start :: boundary :: rest ↔
      start + t.leaves.length = boundary ∧
        boundaries (start + t.leaves.length) ts = boundary :: rest := by
  rw [boundaries, List.cons.injEq]
  refine ⟨fun h => ⟨?_, h.2⟩, fun h => ⟨rfl, h.2⟩⟩
  obtain ⟨later, hlater⟩ := boundaries_eq_cons (start + t.leaves.length) ts
  rw [hlater, List.cons.injEq] at h
  exact h.2.1

/-! ### The span of a placed tree -/

@[simp] theorem spanAt_start (start : Nat) (t : Tree) : (spanAt start t).start = start := rfl

@[simp] theorem spanAt_stop (start : Nat) (t : Tree) :
    (spanAt start t).stop = start + t.leaves.length := rfl

theorem spanAt_eq_iff {t : Tree} {span : Span} :
    spanAt span.start t = span ↔ span.start + t.leaves.length = span.stop := by
  cases span
  simp [spanAt]

theorem DerivesAt.stop_le {t : Tree} (h : DerivesAt g tokens start t) :
    start + t.leaves.length ≤ tokens.length := by
  have hpos := h.derives.leaves_length_pos
  have hle := h.leaves_prefix.length_le
  rw [List.length_drop] at hle
  omega

/-- The derivations placed over a span are those whose leaves are its tokens. -/
theorem derivesAt_and_spanAt_iff {t : Tree} {span : Span} :
    DerivesAt g tokens span.start t ∧ spanAt span.start t = span ↔
      (span.start < span.stop ∧ span.stop ≤ tokens.length) ∧
        t.Derives g.ExpandsProperly ∧ t.leaves = span.slice tokens := by
  unfold Span.slice
  rw [spanAt_eq_iff]
  constructor
  · rintro ⟨h, hs⟩
    have hpos := h.derives.leaves_length_pos
    have hle := h.stop_le
    refine ⟨by omega, h.derives, ?_⟩
    rw [List.drop_take, ← hs, Nat.add_sub_cancel_left]
    exact List.prefix_iff_eq_take.mp h.leaves_prefix
  · rintro ⟨⟨hlt, hle⟩, hd, hl⟩
    rw [List.drop_take] at hl
    refine ⟨⟨hd, hl ▸ List.take_prefix _ _⟩, ?_⟩
    rw [hl, List.length_take, List.length_drop]
    omega

theorem DerivesAt.within {t : Tree} (h : DerivesAt g tokens start t) :
    start < start + t.leaves.length ∧ start + t.leaves.length ≤ tokens.length :=
  ⟨Nat.lt_add_of_pos_right h.derives.leaves_length_pos, h.stop_le⟩

end Tree

/-! ### Deriving a symbol over a span -/

/-- Some derivation of the symbol without empty alternatives covers exactly the span. -/
def Grammar.DerivesOver (g : Grammar) (tokens : List String) (symbol : Symbol) (span : Span) : Prop :=
  ∃ t : Tree, t.root = symbol ∧ t.DerivesAt g tokens span.start ∧ t.spanAt span.start = span

namespace Grammar

variable {g : Grammar} {tokens : List String} {span : Span}

theorem derivesOver_terminal_iff {text : String} :
    g.DerivesOver tokens (.terminal text) span ↔
      span.length = 1 ∧ tokens[span.start]? = some text := by
  unfold Span.length
  constructor
  · rintro ⟨t, hr, hd, hs⟩
    obtain rfl := hd.derives.eq_leaf hr
    have hstop := Tree.spanAt_eq_iff.mp hs
    rw [Tree.leaves, List.length_singleton] at hstop
    exact ⟨by omega, Tree.derivesAt_leaf.mp hd⟩
  · rintro ⟨hlen, htext⟩
    refine ⟨.leaf text, rfl, Tree.derivesAt_leaf.mpr htext, Tree.spanAt_eq_iff.mpr ?_⟩
    rw [Tree.leaves, List.length_singleton]
    omega

theorem derivesOver_iff {symbol : Symbol} :
    g.DerivesOver tokens symbol span ↔
      (span.start < span.stop ∧ span.stop ≤ tokens.length) ∧
        ∃ t : Tree, t.root = symbol ∧ t.Derives g.ExpandsProperly ∧ t.leaves = span.slice tokens := by
  unfold DerivesOver
  simp only [Tree.derivesAt_and_spanAt_iff]
  constructor
  · rintro ⟨t, hr, hin, hd⟩
    exact ⟨hin, t, hr, hd⟩
  · rintro ⟨hin, t, hr, hd⟩
    exact ⟨t, hr, hin, hd⟩

end Grammar

end ParseForest
