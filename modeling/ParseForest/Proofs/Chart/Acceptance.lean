import ParseForest.Proofs.Chart.Forest
import ParseForest.Proofs.Grammar.Construction

/-! # Acceptance and the forest agree

Acceptance looks at one cell of the chart, the forest is read off with cycles left out.  Both are
there when the start symbol has a derivation of the tokens (`accepts_iff`, `trees_ne_nil_iff`), since a
derivation can be freed of its cycles.  So accepted is what the start symbol derives, the empty input by
an empty alternative of its own (`accepts_iff_startDerives`).  The same holds of any nonterminal and any
span, with that nonterminal for a start symbol (`accepts_iff_trees_ne_nil`). -/

namespace ParseForest

variable {g : Grammar} {tokens : List String}

namespace Grammar

theorem DerivesOver.slice_ne_nil {symbol : Symbol} {span : Span}
    (h : g.DerivesOver tokens symbol span) : span.slice tokens ≠ [] := by
  obtain ⟨-, t, -, hd, hleaves⟩ := derivesOver_iff.mp h
  rw [← hleaves]
  exact hd.leaves_ne_nil

theorem DerivesOver.mem_names {name : String} {span : Span}
    (h : g.DerivesOver tokens (.nonterminal name) span) : name ∈ g.names := by
  obtain ⟨t, hroot, hd, -⟩ := h
  obtain ⟨children, rfl⟩ := hd.derives.eq_node hroot
  exact mem_names_of_expands (Tree.derivesAt_node.mp hd).1.2

/-- The start symbol derives the tokens: none by an empty alternative of its own, others without any. -/
inductive StartDerives (g : Grammar) (tokens : List String) : Prop
  | empty : tokens = [] → g.Expands g.start [] → StartDerives g tokens
  | tree {t : Tree} :
      t.root = .nonterminal g.start → t.Derives g.ExpandsProperly → t.leaves = tokens →
      StartDerives g tokens

end Grammar

namespace Chart

theorem mem_recognized_iff {chart : Chart} {span : Span} {name : String} :
    name ∈ chart.recognized span ↔ chart.recognizes name span = true := by
  unfold recognized recognizes
  rw [Text.mem_sorted, decide_eq_true_eq]

theorem accepts_iff (hn : g.names.Nodup) (hne : tokens ≠ []) :
    (build g tokens).accepts = true ↔
      g.DerivesOver tokens (.nonterminal g.start) ⟨0, tokens.length⟩ := by
  unfold accepts
  rw [if_neg (by rw [List.isEmpty_iff]; exact hne)]
  exact recognizes_iff_derivesOver hn

theorem trees_ne_nil_iff (hn : g.names.Nodup) (hne : tokens ≠ []) :
    (build g tokens).trees ≠ [] ↔
      ∃ t : Tree, t.root = .nonterminal g.start ∧ t.Derives g.ExpandsProperly ∧ t.leaves = tokens := by
  constructor
  · intro h
    obtain ⟨t, ht⟩ := List.exists_mem_of_ne_nil _ h
    obtain ⟨hroot, hd, hleaves, -⟩ := (mem_trees_iff hn hne).mp ht
    exact ⟨t, hroot, hd, hleaves⟩
  · rintro ⟨t, hroot, hd, hleaves⟩
    have hwhole : t.leaves = tokens.drop 0 := hleaves
    have hda : t.DerivesAt g tokens 0 := ⟨hd, hwhole ▸ List.prefix_refl _⟩
    obtain ⟨s, hroots, hlen, hds, hav⟩ := Tree.exists_avoids hda
    have hprefix := hds.leaves_prefix
    rw [List.drop_zero] at hprefix
    have hlength : s.leaves.length = tokens.length := by rw [hlen, hleaves]
    have hsleaves := hprefix.eq_of_length hlength
    have hmem : s ∈ (build g tokens).trees := (mem_trees_iff hn hne).mpr
      ⟨hroots.trans hroot, hds.derives, hsleaves, Tree.cycleFree_iff_avoids.mpr hav⟩
    exact List.ne_nil_of_mem hmem

theorem accepts_iff_ne_nil (hn : g.names.Nodup) (tokens : List String) :
    (build g tokens).accepts = true ↔ (build g tokens).trees ≠ [] := by
  by_cases hne : tokens = []
  · subst hne
    rw [accepts_nil_iff, trees_nil]
    split
    · rename_i h
      exact ⟨fun _ => List.cons_ne_nil _ _, fun _ => h⟩
    · rename_i h
      exact ⟨fun hm => absurd hm h, fun hm => absurd rfl hm⟩
  · rw [accepts_iff hn hne, trees_ne_nil_iff hn hne, Grammar.derivesOver_iff, Span.slice_whole]
    have hpos := List.length_pos_iff.mpr hne
    exact ⟨fun h => h.2, fun h => ⟨⟨hpos, Nat.le_refl _⟩, h⟩⟩

theorem accepts_iff_startDerives (hn : g.names.Nodup) (tokens : List String) :
    (build g tokens).accepts = true ↔ g.StartDerives tokens := by
  by_cases hne : tokens = []
  · subst hne
    rw [accepts_nil_iff]
    refine ⟨.empty rfl, fun h => ?_⟩
    cases h with
    | empty _ hempty => exact hempty
    | tree _ hd hleaves => exact absurd hleaves hd.leaves_ne_nil
  · rw [accepts_iff_ne_nil hn, trees_ne_nil_iff hn hne]
    constructor
    · rintro ⟨t, hroot, hd, hleaves⟩
      exact .tree hroot hd hleaves
    · intro h
      cases h with
      | empty hnil => exact absurd hnil hne
      | tree hroot hd hleaves => exact ⟨_, hroot, hd, hleaves⟩

/-- A nonterminal recognized over a span has a tree for the tokens of the span. -/
theorem parse_slice_ne_nil (hn : g.names.Nodup) {name : String} {span : Span}
    (h : (build g tokens).recognizes name span = true) (direction : Direction) :
    parse { g with start := name } (span.slice tokens) direction ≠ [] := by
  have hover := (recognizes_iff_derivesOver hn).mp h
  have htrees : (build { g with start := name } (span.slice tokens)).trees ≠ [] :=
    (trees_ne_nil_iff (g := { g with start := name }) hn hover.slice_ne_nil).mpr
      (Grammar.derivesOver_iff.mp hover).2
  obtain ⟨t, ht⟩ := List.exists_mem_of_ne_nil _ htrees
  exact List.ne_nil_of_mem (Direction.mem_arrange.mpr ht)

/-- **Acceptance and the forest agree**, for the whole input and the start symbol, and for every
nonterminal recognized over a span when that span is parsed from it. -/
theorem accepts_iff_trees_ne_nil (g : Grammar) (hg : g.WellFormed) (tokens : List String) :
    ((build g tokens).accepts = true ↔ (build g tokens).trees ≠ []) ∧
    ∀ (span : Span) (name : String), name ∈ (build g tokens).recognized span →
      ∃ restarted : Grammar, g.withStart name = .ok restarted ∧ restarted.WellFormed ∧
        ∀ direction : Direction, parse restarted (span.slice tokens) direction ≠ [] := by
  refine ⟨accepts_iff_ne_nil hg.names_nodup tokens, fun span name hm => ?_⟩
  have hrec := mem_recognized_iff.mp hm
  have hname := ((recognizes_iff_derivesOver hg.names_nodup).mp hrec).mem_names
  exact ⟨_, Grammar.withStart_eq_ok hname, hg.withStart hname,
    parse_slice_ne_nil hg.names_nodup hrec⟩

/-- The nonterminal on the cycle is accepted and parsed too. -/
theorem accepts_loopGrammar_iff :
    loopGrammar.WellFormed ∧ "A" ∈ (build loopGrammar ["a"]).recognized ⟨0, 1⟩ ∧
      (build loopGrammar ["a"]).trees ≠ [] ∧
      ∃ restarted : Grammar, loopGrammar.withStart "A" = .ok restarted ∧ restarted.WellFormed ∧
        ∀ direction : Direction, parse restarted (Span.slice ⟨0, 1⟩ ["a"]) direction ≠ [] := by
  have hg : loopGrammar.WellFormed := by decide
  have hm : "A" ∈ (build loopGrammar ["a"]).recognized ⟨0, 1⟩ :=
    mem_recognized_iff.mpr (by decide)
  have h := accepts_iff_trees_ne_nil loopGrammar hg ["a"]
  exact ⟨hg, hm, h.1.mp (by decide), h.2 ⟨0, 1⟩ "A" hm⟩

end Chart

end ParseForest
