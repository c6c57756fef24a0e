import ParseForest.Proofs.Chart.Boundaries
import ParseForest.Proofs.Chart.RuleOrder

/-! # What a chart stores

A cell stores one entry for each nonterminal recognized over its span (`cell_perm_recognized`), and an
entry is never empty (`expansions_ne_nil_iff`).  It holds exactly the alternatives of the nonterminal,
by their places, with the boundaries that divide the span among their symbols, each symbol matching its
part (`mem_expansions_iff_expandsOver`).  So whatever is looked up on the way from an expansion to its
trees is there (`inRange_of_mem`). -/

namespace ParseForest.Chart

/-- A terminal matches its own token, a nonterminal matches where it is recognized. -/
def Matches (chart : Chart) : Symbol → Span → Prop
  | .terminal text, part => part.stop = part.start + 1 ∧ chart.tokens[part.start]? = some text
  | .nonterminal name, part => name ∈ chart.recognized part

/-- The place of an alternative that has symbols, and boundaries that divide the span among them. -/
def ExpandsOver (chart : Chart) (name : String) (span : Span) (expansion : Expansion) : Prop :=
  ∃ symbols, (chart.grammar.alternatives name)[expansion.alternative]? = some symbols ∧
    symbols ≠ [] ∧ Divides chart.Matches symbols span expansion.boundaries

/-- What growing trees from an expansion looks up is there.  The alternative has its place, it has a
part for each symbol and no more parts, and a part lies in the span and the input, over its token or
over a span where its nonterminal is recognized. -/
structure InRange (chart : Chart) (name : String) (span : Span) (expansion : Expansion) : Prop where
  place_lt : expansion.alternative < (chart.grammar.alternatives name).length
  symbols_eq : (chart.grammar.alternatives name)[expansion.alternative]? =
    some ((chart.parts name expansion).map Prod.fst)
  spans_eq : expansion.spans = (chart.parts name expansion).map Prod.snd
  within : ∀ part ∈ chart.parts name expansion, part.2.Within span.start span.stop
  stop_le : span.stop ≤ chart.tokens.length
  matched : ∀ part ∈ chart.parts name expansion, chart.Matches part.1 part.2

variable {g : Grammar} {tokens : List String} {name : String} {span : Span}

/-! ### What fits, and what matches -/

theorem fits_iff_matches {chart : Chart} {symbol : Symbol} {part : Span} :
    chart.fits symbol part = true ↔ chart.Matches symbol part := by
  cases symbol with
  | nonterminal name => exact mem_recognized_iff.symm
  | terminal text =>
      unfold fits Matches Span.length
      simp only [Bool.and_eq_true, decide_eq_true_eq]
      refine and_congr_left fun _ => ?_
      omega

theorem divides_iff {chart : Chart} {symbols : List Symbol} {boundaries : List Nat} :
    IsSplit chart.fits symbols span boundaries ↔ Divides chart.Matches symbols span boundaries := by
  rw [isSplit_iff]
  simp only [fits_iff_matches]

theorem within_of_mem_recognized (h : name ∈ (build g tokens).recognized span) :
    span.Within 0 tokens.length :=
  (recognizes_iff.mp (mem_recognized_iff.mp h)).1

/-! ### Expansions -/

theorem mem_expansions_iff_expandsOver (hn : g.names.Nodup) {expansion : Expansion} :
    expansion ∈ (build g tokens).expansions name span ↔
      (build g tokens).ExpandsOver name span expansion := by
  rw [mem_expansions_iff hn]
  simp only [divides_iff]
  rfl

theorem expansions_pairwise (hn : g.names.Nodup) :
    ((build g tokens).expansions name span).Pairwise Expansion.Before := by
  rw [expansions_build hn]
  exact expansionsBy_pairwise _ _ _

theorem Expansion.Before.ne {a b : Expansion} (h : a.Before b) : a ≠ b := by
  rintro rfl
  rcases h with hlt | ⟨-, hlt⟩
  · exact Nat.lt_irrefl _ hlt
  · exact List.lt_irrefl _ hlt

theorem expansions_ne_nil_iff (hn : g.names.Nodup) :
    (build g tokens).expansions name span ≠ [] ↔ name ∈ (build g tokens).recognized span := by
  rw [mem_recognized_iff]
  constructor
  · intro h
    obtain ⟨expansion, hmem⟩ := List.exists_mem_of_ne_nil _ h
    rw [expansions_build hn] at hmem
    exact recognizes_of_mem_expansionsBy hn hmem
  · intro h
    obtain ⟨t, hroot, hd, hspan⟩ := (recognizes_iff_derivesOver hn).mp h
    obtain ⟨children, rfl⟩ := hd.derives.eq_node hroot
    obtain ⟨place, rest, -, -, -, hmem⟩ := exists_expansion hn hd hspan
    exact List.ne_nil_of_mem hmem

/-- Nothing that is looked up for a stored expansion is out of range. -/
theorem inRange_of_mem (hn : g.names.Nodup) {expansion : Expansion}
    (h : expansion ∈ (build g tokens).expansions name span) :
    (build g tokens).InRange name span expansion := by
  obtain ⟨place, boundaries⟩ := expansion
  obtain ⟨symbols, hplace, -, hsplit⟩ := (mem_expansions_iff hn).mp h
  have hparts : (build g tokens).parts name _ = _ := parts_build hplace
  have hlength := hsplit.length_spans place
  have hzip := hsplit.forall_mem_zip place
  have hwithin : span.Within 0 tokens.length :=
    within_of_mem_recognized ((expansions_ne_nil_iff hn).mp (List.ne_nil_of_mem h))
  refine ⟨(List.getElem?_eq_some_iff.mp hplace).1, ?_, ?_, ?_, hwithin.2.2, ?_⟩
  · rw [hparts, List.map_fst_zip (Nat.le_of_eq hlength.symm)]
    exact hplace
  · rw [hparts, List.map_snd_zip (Nat.le_of_eq hlength)]
  · rw [hparts]
    exact fun part hpart => (hzip part hpart).1
  · rw [hparts]
    exact fun part hpart => fits_iff_matches.mp (hzip part hpart).2

/-! ### Cells -/

/-- A cell stores the recognized nonterminals, each once and with its expansions. -/
theorem cell_perm_recognized (hn : g.names.Nodup) (tokens : List String) (span : Span) :
    (((build g tokens).table.cell span).map fun entry => (entry.name, entry.expansions)).Perm
      (((build g tokens).recognized span).map fun name =>
        (name, (build g tokens).expansions name span)) := by
  have hnames := (Text.sorted_perm ((build g tokens).table.cell span).names).symm
  refine List.Perm.trans (List.Perm.of_eq ?_) (hnames.map _)
  rw [Cell.names, cell_build_eq, List.map_map, List.map_map, List.map_map]
  refine List.map_congr_left fun rule hrule => ?_
  simp [expansions_build hn, Grammar.alternatives_of_mem hn (List.mem_of_mem_filter hrule)]

theorem length_recognized (chart : Chart) (span : Span) :
    (chart.recognized span).length = (chart.table.cell span).length := by
  simp [recognized, Cell.names, (Text.sorted_perm _).length_eq]

theorem cell_eq_nil_iff {chart : Chart} :
    chart.table.cell span = [] ↔ chart.recognized span = [] := by
  rw [← List.length_eq_zero_iff, ← length_recognized, List.length_eq_zero_iff]

end ParseForest.Chart
