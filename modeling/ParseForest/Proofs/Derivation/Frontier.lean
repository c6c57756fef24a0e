import ParseForest.Derivation.Sequence
import ParseForest.Proofs.Derivation.Placed

/-! # Frontiers and derivations

A derivation, taken as a row of forms, and a tree are two ways to say the same.  The tree is more
than its first form, but each form of the row is the roots of a cut through the tree (a frontier),
and the next one comes from expanding the first or the last node of the cut.

Everything is said for both directions at once.  `Direction.outer` is the side on which only
terminals may stand; it makes the place of an expansion unique (`Direction.place_unique`).  A frontier
is all leaves or has such a place (`exists_place`), which gives an induction over frontiers
(`frontier_induction`).  By it the forms of a tree are those that expanding gives with no limit on the
steps (`formsWithin_internalNodes_add`), the forms of a frontier of derivations are a derivation
(`steps_frontierForms`), and no other frontier has them (`frontierForms_injective`); by induction on the
steps each derivation is the row of forms of a frontier (`exists_frontier`). -/

namespace ParseForest

/-! ### The place of an expansion -/

/-- What stands on the side from which expansion starts. -/
def Direction.outer {α : Type} : Direction → (before after : List α) → List α
  | leftmost, before, _ => before
  | rightmost, _, after => after

theorem Direction.outer_map {α β : Type} (f : α → β) (direction : Direction) (before after : List α) :
    direction.outer (before.map f) (after.map f) = (direction.outer before after).map f := by
  cases direction <;> rfl

/-- With nothing but settled items on the outer side, the place of an unsettled one does not move
to the right. -/
theorem Direction.place_not_later {α : Type} {settled : α → Prop} {direction : Direction}
    {before before' after after' between : List α} {a a' : α}
    (hbefore : before' = before ++ between) (hafter : a :: after = between ++ a' :: after')
    (ha : ¬settled a) (ha' : ¬settled a') (h : ∀ b ∈ direction.outer before after, settled b)
    (h' : ∀ b ∈ direction.outer before' after', settled b) : between = [] := by
  cases between with
  | nil => rfl
  | cons b between =>
      rw [List.cons_append, List.cons.injEq] at hafter
      obtain ⟨rfl, rfl⟩ := hafter
      subst hbefore
      cases direction with
      | leftmost => exact absurd (h' a (List.mem_append_right _ List.mem_cons_self)) ha
      | rightmost => exact absurd (h a' (List.mem_append_right _ List.mem_cons_self)) ha'

theorem Direction.place_unique {α : Type} {settled : α → Prop} {direction : Direction}
    {before before' after after' : List α} {a a' : α}
    (heq : before ++ a :: after = before' ++ a' :: after') (ha : ¬settled a) (ha' : ¬settled a')
    (h : ∀ b ∈ direction.outer before after, settled b)
    (h' : ∀ b ∈ direction.outer before' after', settled b) :
    before = before' ∧ a = a' ∧ after = after' := by
  have hbefore : before = before' := by
    rcases List.append_eq_append_iff.mp heq with ⟨between, hb, hf⟩ | ⟨between, hb, hf⟩
    · rw [hb, Direction.place_not_later hb hf ha ha' h h', List.append_nil]
    · rw [hb, Direction.place_not_later hb hf ha' ha h' h, List.append_nil]
  subst hbefore
  obtain ⟨rfl, rfl⟩ := List.cons.inj (List.append_cancel_left heq)
  exact ⟨rfl, rfl, rfl⟩

/-! ### Steps between forms -/

theorem Form.place_unique {direction : Direction} {before before' after after' : Form}
    {name name' : String}
    (heq : before ++ .nonterminal name :: after = before' ++ .nonterminal name' :: after')
    (h : ∀ symbol ∈ direction.outer before after, symbol.isTerminal = true)
    (h' : ∀ symbol ∈ direction.outer before' after', symbol.isTerminal = true) :
    before = before' ∧ name = name' ∧ after = after' := by
  have hname : ∀ name, ¬(Symbol.nonterminal name).isTerminal = true := by simp
  obtain ⟨hbefore, heq, hafter⟩ := Direction.place_unique heq (hname name) (hname name') h h'
  exact ⟨hbefore, Symbol.nonterminal.inj heq, hafter⟩

theorem Form.all_terminal_iff {form : Form} :
    (∀ symbol ∈ form, symbol.isTerminal = true) ↔ ∃ tokens, form = Form.ofTokens tokens := by
  constructor
  · intro h
    induction form with
    | nil => exact ⟨[], rfl⟩
    | cons symbol form ih =>
        obtain ⟨hsymbol, hform⟩ := List.forall_mem_cons.mp h
        obtain ⟨tokens, rfl⟩ := ih hform
        cases symbol with
        | terminal text => exact ⟨text :: tokens, rfl⟩
        | nonterminal name => exact absurd hsymbol Bool.false_ne_true
  · rintro ⟨tokens, rfl⟩ symbol hsymbol
    obtain ⟨text, -, rfl⟩ := List.mem_map.mp hsymbol
    rfl

namespace Grammar

variable {g : Grammar} {direction : Direction}

theorem step_iff {form next : Form} :
    g.Step direction form next ↔
      ∃ before name alternative after, form = before ++ .nonterminal name :: after ∧
        next = before ++ alternative ++ after ∧ g.Expands name alternative ∧
        ∀ symbol ∈ direction.outer before after, symbol.isTerminal = true := by
  constructor
  · intro h
    cases h with
    | leftmost before name alternative after hexp =>
        exact ⟨_, _, _, _, rfl, rfl, hexp, Form.all_terminal_iff.mpr ⟨before, rfl⟩⟩
    | rightmost before name alternative after hexp =>
        exact ⟨_, _, _, _, rfl, rfl, hexp, Form.all_terminal_iff.mpr ⟨after, rfl⟩⟩
  · rintro ⟨before, name, alternative, after, rfl, rfl, hexp, houter⟩
    obtain ⟨tokens, htokens⟩ := Form.all_terminal_iff.mp houter
    cases direction with
    | leftmost =>
        obtain rfl : before = Form.ofTokens tokens := htokens
        exact .leftmost tokens name alternative after hexp
    | rightmost =>
        obtain rfl : after = Form.ofTokens tokens := htokens
        exact .rightmost before name alternative tokens hexp

end Grammar

namespace Tree

variable {g : Grammar} {direction : Direction} {before after children : List Tree} {label : Symbol}

theorem leavesAll_append (ss ts : List Tree) : leavesAll (ss ++ ts) = leavesAll ss ++ leavesAll ts := by
  rw [leavesAll_eq, leavesAll_eq, leavesAll_eq, List.flatMap_append]

theorem leavesAll_node :
    leavesAll (before ++ node label children :: after) = leavesAll (before ++ children ++ after) := by
  simp only [leavesAll_append, leavesAll, leaves, List.append_assoc]

theorem internalNodesAll_append (ss ts : List Tree) :
    internalNodesAll (ss ++ ts) = internalNodesAll ss + internalNodesAll ts := by
  induction ss with
  | nil => exact (Nat.zero_add _).symm
  | cons s ss ih => rw [List.cons_append, internalNodesAll, internalNodesAll, ih, Nat.add_assoc]

theorem internalNodesAll_node :
    internalNodesAll (before ++ node label children :: after) =
      internalNodesAll (before ++ children ++ after) + 1 := by
  simp only [internalNodesAll_append, internalNodesAll, internalNodes]
  omega

/-! ### Expanding a frontier -/

theorem expandFirst?_leaves {frontier : List Tree} (h : ∀ t ∈ frontier, t.isLeaf = true) :
    expandFirst? frontier = none := by
  induction frontier with
  | nil => rfl
  | cons t rest ih =>
      obtain ⟨ht, hrest⟩ := List.forall_mem_cons.mp h
      cases t with
      | leaf text => rw [expandFirst?, ih hrest, Option.map_none]
      | node label children => exact absurd ht Bool.false_ne_true

theorem expandLast?_leaves {frontier : List Tree} (h : ∀ t ∈ frontier, t.isLeaf = true) :
    expandLast? frontier = none := by
  induction frontier with
  | nil => rfl
  | cons t rest ih =>
      obtain ⟨ht, hrest⟩ := List.forall_mem_cons.mp h
      cases t with
      | leaf text => rw [expandLast?, ih hrest]
      | node label children => exact absurd ht Bool.false_ne_true

theorem expandFirst?_place (h : ∀ t ∈ before, t.isLeaf = true) :
    expandFirst? (before ++ node label children :: after) = some (before ++ children ++ after) := by
  induction before with
  | nil => rfl
  | cons t before ih =>
      obtain ⟨ht, hbefore⟩ := List.forall_mem_cons.mp h
      cases t with
      | leaf text =>
          rw [List.cons_append, expandFirst?, ih hbefore]
          rfl
      | node label children => exact absurd ht Bool.false_ne_true

theorem expandLast?_place (h : ∀ t ∈ after, t.isLeaf = true) :
    expandLast? (before ++ node label children :: after) = some (before ++ children ++ after) := by
  induction before with
  | nil => simp only [List.nil_append, expandLast?, expandLast?_leaves h]
  | cons t before ih =>
      rw [List.cons_append]
      unfold expandLast?
      rw [ih]
      rfl

theorem expand?_leaves {frontier : List Tree} (h : ∀ t ∈ frontier, t.isLeaf = true) :
    expand? direction frontier = none := by
  cases direction with
  | leftmost => exact expandFirst?_leaves h
  | rightmost => exact expandLast?_leaves h

theorem expand?_place (h : ∀ t ∈ direction.outer before after, t.isLeaf = true) :
    expand? direction (before ++ node label children :: after) =
      some (before ++ children ++ after) := by
  cases direction with
  | leftmost => exact expandFirst?_place h
  | rightmost => exact expandLast?_place h

/-- A frontier is all leaves, or has a node to expand with only leaves on the outer side. -/
theorem exists_place (direction : Direction) (frontier : List Tree) :
    (∀ t ∈ frontier, t.isLeaf = true) ∨
      ∃ before label children after, frontier = before ++ node label children :: after ∧
        ∀ t ∈ direction.outer before after, t.isLeaf = true := by
  induction frontier with
  | nil => exact Or.inl fun _ h => absurd h List.not_mem_nil
  | cons t rest ih =>
      cases direction with
      | leftmost =>
          cases t with
          | node label children =>
              exact Or.inr ⟨[], label, children, rest, rfl, fun _ h => absurd h List.not_mem_nil⟩
          | leaf text =>
              rcases ih with hleaves | ⟨before, label, children, after, rfl, houter⟩
              · exact Or.inl (List.forall_mem_cons.mpr ⟨rfl, hleaves⟩)
              · exact Or.inr ⟨leaf text :: before, label, children, after, rfl,
                  List.forall_mem_cons.mpr ⟨rfl, houter⟩⟩
      | rightmost =>
          rcases ih with hleaves | ⟨before, label, children, after, rfl, houter⟩
          · cases t with
            | node label children => exact Or.inr ⟨[], label, children, rest, rfl, hleaves⟩
            | leaf text => exact Or.inl (List.forall_mem_cons.mpr ⟨rfl, hleaves⟩)
          · exact Or.inr ⟨t :: before, label, children, after, rfl, houter⟩

/-- Induction over frontiers: each expansion leaves one node less. -/
theorem frontier_induction (direction : Direction) {motive : List Tree → Prop}
    (leaves : ∀ frontier, (∀ t ∈ frontier, t.isLeaf = true) → motive frontier)
    (expand : ∀ before label children after,
      (∀ t ∈ direction.outer before after, t.isLeaf = true) →
      motive (before ++ children ++ after) → motive (before ++ node label children :: after))
    (frontier : List Tree) : motive frontier := by
  induction hn : internalNodesAll frontier using Nat.strongRecOn generalizing frontier with
  | ind n ih =>
      rcases exists_place direction frontier with h | ⟨before, label, children, after, rfl, houter⟩
      · exact leaves frontier h
      · rw [internalNodesAll_node] at hn
        exact expand before label children after houter (ih _ (by omega) _ rfl)

/-! ### The forms of a frontier -/

/-- The forms of all the steps from a frontier to its leaves. -/
def frontierForms (direction : Direction) (frontier : List Tree) : List Form :=
  formsWithin direction (internalNodesAll frontier) frontier

theorem forms_eq_frontierForms (direction : Direction) (t : Tree) :
    t.forms direction = frontierForms direction [t] := rfl

theorem formsWithin_leaves {frontier : List Tree} (h : ∀ t ∈ frontier, t.isLeaf = true)
    (steps : Nat) : formsWithin direction steps frontier = [formOf frontier] := by
  cases steps with
  | zero => rfl
  | succ steps => rw [formsWithin, expand?_leaves h]

theorem formsWithin_place (h : ∀ t ∈ direction.outer before after, t.isLeaf = true) (steps : Nat) :
    formsWithin direction (steps + 1) (before ++ node label children :: after) =
      formOf (before ++ node label children :: after) ::
        formsWithin direction steps (before ++ children ++ after) := by
  rw [formsWithin, expand?_place h]

theorem frontierForms_leaves {frontier : List Tree} (h : ∀ t ∈ frontier, t.isLeaf = true) :
    frontierForms direction frontier = [formOf frontier] :=
  formsWithin_leaves h _

theorem frontierForms_place (h : ∀ t ∈ direction.outer before after, t.isLeaf = true) :
    frontierForms direction (before ++ node label children :: after) =
      formOf (before ++ node label children :: after) ::
        frontierForms direction (before ++ children ++ after) := by
  unfold frontierForms
  rw [internalNodesAll_node, formsWithin_place h]

/-- As many steps as there are nodes reach the leaves, so more steps allowed add nothing. -/
theorem formsWithin_internalNodesAll_add (direction : Direction) (frontier : List Tree) (more : Nat) :
    formsWithin direction (internalNodesAll frontier + more) frontier =
      frontierForms direction frontier := by
  induction frontier using frontier_induction direction with
  | leaves frontier h => rw [formsWithin_leaves h, frontierForms_leaves h]
  | expand before label children after h ih =>
      rw [internalNodesAll_node, Nat.add_right_comm, formsWithin_place h, ih, frontierForms_place h]

/-- **The number of steps allowed cuts nothing off the forms of a tree.** -/
theorem formsWithin_internalNodes_add (direction : Direction) (t : Tree) (more : Nat) :
    formsWithin direction (t.internalNodes + more) [t] = t.forms direction :=
  formsWithin_internalNodesAll_add direction [t] more

theorem frontierForms_ne_nil (frontier : List Tree) : frontierForms direction frontier ≠ [] := by
  unfold frontierForms
  cases internalNodesAll frontier with
  | zero => exact List.cons_ne_nil _ _
  | succ steps => exact List.cons_ne_nil _ _

theorem formOf_place :
    formOf (before ++ node label children :: after) = formOf before ++ label :: formOf after := by
  unfold formOf
  rw [List.map_append, List.map_cons]
  rfl

theorem formOf_expanded :
    formOf (before ++ children ++ after) = formOf before ++ children.map root ++ formOf after := by
  unfold formOf
  rw [List.map_append, List.map_append]

/-! ### Frontiers of derivations -/

/-- The trees are derivations. -/
def Frontier (g : Grammar) (frontier : List Tree) : Prop :=
  ∀ t ∈ frontier, t.Derives g.Expands

theorem Derives.isTerminal_root {expands : String → Alternative → Prop} {t : Tree}
    (h : t.Derives expands) : t.root.isTerminal = t.isLeaf := by
  cases h with
  | leaf text => rfl
  | node name children _ _ => rfl

theorem Frontier.isLeaf_iff {frontier : List Tree} (h : Frontier g frontier) :
    (∀ t ∈ frontier, t.isLeaf = true) ↔ ∀ symbol ∈ formOf frontier, symbol.isTerminal = true := by
  unfold formOf
  rw [List.forall_mem_map]
  refine forall_congr' fun t => imp_congr_right fun ht => ?_
  rw [(h t ht).isTerminal_root]

theorem Frontier.outer {before after : List Tree} (hbefore : Frontier g before)
    (hafter : Frontier g after) : Frontier g (direction.outer before after) := by
  cases direction with
  | leftmost => exact hbefore
  | rightmost => exact hafter

theorem Frontier.eq_leaves {frontier : List Tree} (h : Frontier g frontier) {tokens : List String}
    (hform : formOf frontier = Form.ofTokens tokens) : frontier = tokens.map leaf := by
  induction frontier generalizing tokens with
  | nil =>
      obtain rfl := List.map_eq_nil_iff.mp hform.symm
      rfl
  | cons t rest ih =>
      obtain ⟨ht, hrest⟩ := List.forall_mem_cons.mp h
      cases tokens with
      | nil => exact absurd hform (List.cons_ne_nil _ _)
      | cons token tokens =>
          obtain ⟨hroot, hforms⟩ := List.cons.inj hform
          rw [List.map_cons, ← ih hrest hforms, ht.eq_leaf hroot]

theorem leavesAll_map_leaf (tokens : List String) : leavesAll (tokens.map leaf) = tokens := by
  rw [leavesAll_eq, List.flatMap_map]
  exact List.flatMap_singleton' tokens

theorem frontier_map_leaf (tokens : List String) : Frontier g (tokens.map leaf) := by
  intro t ht
  obtain ⟨token, -, rfl⟩ := List.mem_map.mp ht
  exact .leaf token

theorem Frontier.place (h : Frontier g (before ++ node label children :: after)) :
    Frontier g before ∧ Frontier g after ∧ Frontier g (before ++ children ++ after) ∧
      ∃ name, label = .nonterminal name ∧ g.Expands name (children.map root) := by
  obtain ⟨hbefore, hplace⟩ := List.forall_mem_append.mp h
  obtain ⟨hnode, hafter⟩ := List.forall_mem_cons.mp hplace
  cases hnode with
  | node name children hexp hchildren =>
      refine ⟨hbefore, hafter, ?_, name, rfl, hexp⟩
      exact List.forall_mem_append.mpr ⟨List.forall_mem_append.mpr ⟨hbefore, hchildren⟩, hafter⟩

/-! ### Trees and derivations -/

theorem steps_frontierForms (direction : Direction) (frontier : List Tree) :
    Frontier g frontier → ∃ rest, frontierForms direction frontier = formOf frontier :: rest ∧
      g.Steps direction (Form.ofTokens (leavesAll frontier)) (formOf frontier) rest := by
  induction frontier using frontier_induction direction with
  | leaves frontier hleaves =>
      intro h
      obtain ⟨tokens, htokens⟩ := Form.all_terminal_iff.mp (h.isLeaf_iff.mp hleaves)
      refine ⟨[], frontierForms_leaves hleaves, ?_⟩
      have hfrontier := h.eq_leaves htokens
      rw [htokens, hfrontier, leavesAll_map_leaf]
      exact .done
  | expand before label children after houter ih =>
      intro h
      obtain ⟨hbefore, hafter, hnext, name, rfl, hexp⟩ := h.place
      obtain ⟨rest, hforms, hsteps⟩ := ih hnext
      refine ⟨formOf (before ++ children ++ after) :: rest, ?_, ?_⟩
      · rw [frontierForms_place houter, hforms]
      · rw [leavesAll_node]
        refine .step (Grammar.step_iff.mpr ?_) hsteps
        refine ⟨_, name, _, _, formOf_place, formOf_expanded, hexp, ?_⟩
        unfold formOf
        rw [Direction.outer_map]
        exact (hbefore.outer hafter).isLeaf_iff.mp houter

/-- A derivation is the row of forms of some frontier of derivations. -/
theorem exists_frontier {tokens : List String} {form : Form} {rest : List Form}
    (h : g.Steps direction (Form.ofTokens tokens) form rest) :
    ∃ frontier, Frontier g frontier ∧ formOf frontier = form ∧ leavesAll frontier = tokens ∧
      frontierForms direction frontier = form :: rest := by
  induction h with
  | done =>
      have hform : formOf (tokens.map leaf) = Form.ofTokens tokens := List.map_map
      refine ⟨tokens.map leaf, frontier_map_leaf tokens, hform, leavesAll_map_leaf tokens, ?_⟩
      rw [frontierForms_leaves, hform]
      exact List.forall_mem_map.mpr fun _ _ => rfl
  | step hstep _ ih =>
      obtain ⟨before, name, alternative, after, rfl, rfl, hexp, houter⟩ := Grammar.step_iff.mp hstep
      obtain ⟨next, hnext, hform, hleaves, hforms⟩ := ih
      -- the roots of the next frontier tell which trees become children
      obtain ⟨upto, afters, rfl, hupto, rfl⟩ := List.map_eq_append_iff.mp hform
      obtain ⟨befores, children, rfl, rfl, rfl⟩ := List.map_eq_append_iff.mp hupto
      obtain ⟨hfront, hafters⟩ := List.forall_mem_append.mp hnext
      obtain ⟨hbefores, hchildren⟩ := List.forall_mem_append.mp hfront
      have hnode : (node (.nonterminal name) children).Derives g.Expands :=
        .node name children hexp hchildren
      have hleaf : ∀ t ∈ direction.outer befores afters, t.isLeaf = true := by
        rw [Direction.outer_map] at houter
        exact (Frontier.outer hbefores hafters).isLeaf_iff.mpr houter
      refine ⟨befores ++ node (.nonterminal name) children :: afters, ?_, formOf_place, ?_, ?_⟩
      · exact List.forall_mem_append.mpr ⟨hbefores, List.forall_mem_cons.mpr ⟨hnode, hafters⟩⟩
      · rw [leavesAll_node, hleaves]
      · rw [frontierForms_place hleaf, hforms, formOf_place]
        rfl

/-- The forms of a frontier determine it. -/
theorem frontierForms_injective (direction : Direction) (frontier : List Tree) :
    ∀ other, Frontier g frontier → Frontier g other →
      frontierForms direction frontier = frontierForms direction other → frontier = other := by
  induction frontier using frontier_induction direction with
  | leaves frontier hleaves =>
      intro other h hother heq
      rw [frontierForms_leaves hleaves] at heq
      rcases exists_place direction other with hleaves' | ⟨before, label, children, after, rfl, houter⟩
      · rw [frontierForms_leaves hleaves', List.cons.injEq] at heq
        obtain ⟨tokens, htokens⟩ := Form.all_terminal_iff.mp (h.isLeaf_iff.mp hleaves)
        rw [h.eq_leaves htokens, hother.eq_leaves (heq.1.symm.trans htokens)]
      · rw [frontierForms_place houter, List.cons.injEq] at heq
        exact absurd heq.2.symm (frontierForms_ne_nil _)
  | expand before label children after houter ih =>
      intro other h hother heq
      rw [frontierForms_place houter] at heq
      rcases exists_place direction other with
        hleaves | ⟨before', label', children', after', rfl, houter'⟩
      · rw [frontierForms_leaves hleaves, List.cons.injEq] at heq
        exact absurd heq.2 (frontierForms_ne_nil _)
      · rw [frontierForms_place houter', List.cons.injEq, formOf_place, formOf_place] at heq
        obtain ⟨hbefore, hafter, hnext, name, rfl, -⟩ := h.place
        obtain ⟨hbefore', hafter', hnext', name', rfl, -⟩ := hother.place
        -- the roots agree left and right of the place, so the two frontiers are cut alike
        have hterminal : ∀ symbol ∈ direction.outer (formOf before) (formOf after),
            symbol.isTerminal = true := by
          unfold formOf
          rw [Direction.outer_map]
          exact (hbefore.outer hafter).isLeaf_iff.mp houter
        have hterminal' : ∀ symbol ∈ direction.outer (formOf before') (formOf after'),
            symbol.isTerminal = true := by
          unfold formOf
          rw [Direction.outer_map]
          exact (hbefore'.outer hafter').isLeaf_iff.mp houter'
        obtain ⟨hb, rfl, ha⟩ := Form.place_unique heq.1 hterminal hterminal'
        have hnextEq := ih _ hnext hnext' heq.2
        have hlenb : before.length = before'.length := by simpa [formOf] using congrArg List.length hb
        have hlena : after.length = after'.length := by simpa [formOf] using congrArg List.length ha
        obtain ⟨hfront, rfl⟩ := List.append_inj' hnextEq hlena
        obtain ⟨rfl, rfl⟩ := List.append_inj hfront hlenb
        rfl

theorem forms_injOn (direction : Direction) {s t : Tree} (hs : s.Derives g.Expands)
    (ht : t.Derives g.Expands) (h : s.forms direction = t.forms direction) : s = t := by
  have hfrontier := frontierForms_injective (g := g) direction [s] [t]
    (List.forall_mem_singleton.mpr hs) (List.forall_mem_singleton.mpr ht) h
  exact (List.cons.inj hfrontier).1

theorem derivation_iff {tokens : List String} {forms : List Form} :
    g.Derivation direction tokens forms ↔
      ∃ t : Tree, (t.root = .nonterminal g.start ∧ t.Derives g.Expands ∧ t.leaves = tokens) ∧
        t.forms direction = forms := by
  constructor
  · rintro ⟨rest, rfl, hsteps⟩
    obtain ⟨frontier, hfrontier, hform, hleaves, hforms⟩ := exists_frontier hsteps
    obtain ⟨t, rfl, hroot⟩ := List.map_eq_singleton_iff.mp hform
    rw [leavesAll, leavesAll, List.append_nil] at hleaves
    exact ⟨t, ⟨hroot, hfrontier t List.mem_cons_self, hleaves⟩, hforms⟩
  · rintro ⟨t, ⟨hroot, hd, rfl⟩, rfl⟩
    obtain ⟨rest, hforms, hsteps⟩ :=
      steps_frontierForms (g := g) direction [t] (List.forall_mem_singleton.mpr hd)
    have hform : formOf [t] = [.nonterminal g.start] := by rw [← hroot]; rfl
    rw [leavesAll, leavesAll, List.append_nil, hform] at hsteps
    exact ⟨rest, by rw [forms_eq_frontierForms, hforms, hform], hsteps⟩

end Tree

end ParseForest
