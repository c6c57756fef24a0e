import ParseForest.Proofs.Chart.Cell
import ParseForest.Proofs.Derivation.Placed
import ParseForest.Proofs.Grammar.Rules

/-! # Recognition is exact

A part of the input fits a symbol by the finished chart exactly when the symbol has a derivation
over it (`Chart.fits_iff`).  That nothing else is recognized is an induction on the length of
the span, within which the sweeps only add what has a derivation.  That nothing is missed is an
induction on derivations: the children of a node split its span, and what is recognized is closed
under the rules. -/

namespace ParseForest

variable {g : Grammar} {tokens : List String} {fits : Symbol → Span → Bool} {stop : Nat}

/-! ### Splits and children -/

theorem FitAll.exists_children {symbols : List Symbol} {start : Nat} {rest : List Nat}
    (h : FitAll fits stop symbols start rest)
    (sound : ∀ symbol part, part.Within start stop → fits symbol part = true →
      g.DerivesOver tokens symbol part) :
    ∃ children, children.map Tree.root = symbols ∧ Tree.DerivesAllAt g tokens start children ∧
      start + (Tree.leavesAll children).length = stop := by
  induction h with
  | done => exact ⟨[], rfl, Tree.derivesAllAt_nil, rfl⟩
  | @part symbol symbols start boundary rest hlt hfit hrest ih =>
      obtain ⟨t, hroot, hd, hspan⟩ := sound symbol ⟨start, boundary⟩ (hrest.within hlt) hfit
      have hstop : start + t.leaves.length = boundary := Tree.spanAt_eq_iff.mp hspan
      obtain ⟨children, hroots, hall, hend⟩ :=
        ih fun symbol part hw => sound symbol part (hw.mono (Nat.le_of_lt hlt))
      refine ⟨t :: children, ?_, Tree.derivesAllAt_cons.mpr ⟨hd, hstop.symm ▸ hall⟩, ?_⟩
      · rw [List.map_cons, hroot, hroots]
      · rw [Tree.leavesAll, List.length_append]
        omega

theorem IsSplit.derivesOver {symbols : List Symbol} {span : Span} {boundaries : List Nat}
    {name : String} (h : IsSplit fits symbols span boundaries)
    (hexp : g.ExpandsProperly name symbols)
    (sound : ∀ symbol part, part.Within span.start span.stop → fits symbol part = true →
      g.DerivesOver tokens symbol part) :
    g.DerivesOver tokens (.nonterminal name) span := by
  obtain ⟨rest, -, hfit⟩ := h
  obtain ⟨children, rfl, hall, hstop⟩ := hfit.exists_children sound
  exact ⟨.node (.nonterminal name) children, rfl, Tree.derivesAt_node.mpr ⟨hexp, hall⟩,
    Tree.spanAt_eq_iff.mpr hstop⟩

theorem Tree.DerivesAllAt.fitAll {children : List Tree} {start : Nat}
    (h : DerivesAllAt g tokens start children)
    (complete : ∀ child ∈ children, ∀ position, child.DerivesAt g tokens position →
      fits child.root (child.spanAt position) = true) :
    ∃ rest, boundaries start children = start :: rest ∧
      FitAll fits (start + (leavesAll children).length) (children.map root) start rest := by
  induction children generalizing start with
  | nil => exact ⟨[], rfl, .done⟩
  | cons child children ih =>
      obtain ⟨hchild, hrest⟩ := derivesAllAt_cons.mp h
      obtain ⟨rest, hb, hfit⟩ := ih hrest fun c hc => complete c (List.mem_cons_of_mem _ hc)
      refine ⟨(start + child.leaves.length) :: rest, ?_, ?_⟩
      · rw [boundaries, hb]
      · rw [leavesAll, List.length_append, ← Nat.add_assoc]
        exact .part hchild.within.1 (complete child List.mem_cons_self start hchild) hfit

namespace Chart

theorem fits_terminal_iff {text : String} {part : Span} :
    (build g tokens).fits (.terminal text) part = true ↔
      g.DerivesOver tokens (.terminal text) part := by
  unfold fits
  rw [Bool.and_eq_true, decide_eq_true_eq, decide_eq_true_eq]
  exact Grammar.derivesOver_terminal_iff.symm

/-! ### Nothing else is recognized -/

/-- What fits while a span is filled has a derivation, if what is known over the span and what the
finished chart holds over shorter spans has one. -/
theorem derivesOver_of_table_fits {span part : Span} {known : List String} {symbol : Symbol}
    (hp : part.Within span.start span.stop)
    (hknown : ∀ name ∈ known, g.DerivesOver tokens (.nonterminal name) span)
    (hshorter : ∀ name, part.length < span.length → (build g tokens).recognizes name part = true →
      g.DerivesOver tokens (.nonterminal name) part)
    (hf : (shorterTable g tokens span).fits tokens span known symbol part = true) :
    g.DerivesOver tokens symbol part := by
  cases symbol with
  | terminal text => exact fits_terminal_iff.mp hf
  | nonterminal name =>
      unfold Table.fits at hf
      simp only at hf
      by_cases he : part = span
      · rw [if_pos he, decide_eq_true_eq] at hf
        exact he ▸ hknown name hf
      · rw [if_neg he, cell_shorterTable hp he] at hf
        exact hshorter name (hp.length_lt he) hf

theorem derivesOver_of_recognizes (hn : g.names.Nodup) {name : String} {span : Span}
    (h : (build g tokens).recognizes name span = true) :
    g.DerivesOver tokens (.nonterminal name) span := by
  induction hlen : span.length using Nat.strongRecOn generalizing name span with
  | ind length ih =>
      subst hlen
      obtain ⟨-, hm⟩ := recognizes_iff.mp h
      refine Table.recognize_induction
        (motive := fun name => g.DerivesOver tokens (.nonterminal name) span)
        (fun known hknown rule hr hd => ?_) name hm
      obtain ⟨symbols, halt, boundaries, hb⟩ := Table.derives_iff.mp hd
      obtain ⟨hne, hsplit⟩ := mem_splits.mp hb
      have hexp : g.Expands rule.name symbols := by
        unfold Grammar.Expands
        rw [Grammar.alternatives_of_mem hn hr]
        exact halt
      exact hsplit.derivesOver ⟨hne, hexp⟩ fun symbol part hp hf =>
        derivesOver_of_table_fits hp hknown (fun name hlt hrec => ih part.length hlt hrec rfl) hf

/-! ### Nothing is missed -/

theorem fits_of_derivesAt {t : Tree} {start : Nat} (h : t.DerivesAt g tokens start) :
    (build g tokens).fits t.root (t.spanAt start) = true := by
  have hd := h.derives
  induction hd generalizing start with
  | leaf text => exact fits_terminal_iff.mpr ⟨.leaf text, rfl, h, rfl⟩
  | node name children hexp _ ih =>
      obtain ⟨-, hall⟩ := Tree.derivesAt_node.mp h
      obtain ⟨rest, -, hfit⟩ := hall.fitAll fun child hc position hchild => ih child hc hchild
      obtain ⟨rule, hr, rfl, heq⟩ := Grammar.exists_rule_of_mem_alternatives hexp.2
      have hw := h.within
      exact recognizes_of_mem_splits ⟨Nat.zero_le _, hw⟩ hr (heq ▸ hexp.2)
        (mem_splits.mpr ⟨hexp.1, rest, rfl, hfit⟩)

/-- **Recognition is exact**: a nonterminal is recognized where it has a derivation. -/
theorem recognizes_iff_derivesOver (hn : g.names.Nodup) {name : String} {span : Span} :
    (build g tokens).recognizes name span = true ↔
      g.DerivesOver tokens (.nonterminal name) span := by
  refine ⟨derivesOver_of_recognizes hn, ?_⟩
  rintro ⟨t, hr, hd, hspan⟩
  have hf := fits_of_derivesAt hd
  rw [hr, hspan] at hf
  exact hf

theorem fits_iff (hn : g.names.Nodup) {symbol : Symbol} {part : Span} :
    (build g tokens).fits symbol part = true ↔ g.DerivesOver tokens symbol part := by
  cases symbol with
  | terminal text => exact fits_terminal_iff
  | nonterminal name => exact recognizes_iff_derivesOver hn

end Chart

end ParseForest
