import ParseForest.Chart.Lookup
import ParseForest.Proofs.Chart.Boundaries

/-! # The search for splits misses none

Ends that would leave too few tokens are not tried, and over the whole span a nonterminal is looked for
among those known so far, not in the table.  Still the search finds exactly the increasing boundaries whose
parts match their symbols.  Every part that it asks about starts at a token of the input
(`splits?_eq_some`), what it is told there is whether the part matches (`fits_iff_matches`), and more known
nonterminals can only add splits (`splits_subset`). -/

namespace ParseForest

variable {table : Table} {tokens known : List String} {symbols : List Symbol} {span : Span}

theorem splits_eq_nil {fits : Symbol → Span → Bool} (h : span.length < symbols.length) :
    splits fits symbols span = [] := by
  apply List.eq_nil_iff_forall_not_mem.mpr
  intro boundaries hmem
  obtain ⟨-, rest, -, hfit⟩ := mem_splits.mp hmem
  have hle := hfit.length_le
  unfold Span.length at h
  omega

namespace Table

/-- A terminal matches its own token, a nonterminal matches where it is recognized: over the `whole` span
it has to be among those `known`, over another part in the table. -/
def Matches (table : Table) (tokens : List String) (whole : Span) (known : List String) :
    Symbol → Span → Prop
  | .terminal text, part => part.stop = part.start + 1 ∧ tokens[part.start]? = some text
  | .nonterminal name, part =>
    part = whole ∧ name ∈ known ∨ part ≠ whole ∧ name ∈ (table.cell part).names

theorem fits_iff_matches {symbol : Symbol} {part : Span} :
    table.fits tokens span known symbol part = true ↔ table.Matches tokens span known symbol part := by
  cases symbol with
  | terminal text =>
      unfold fits Matches Span.length
      simp only [Bool.and_eq_true, decide_eq_true_eq]
      apply and_congr_left
      intro _
      omega
  | nonterminal name =>
      unfold fits Matches
      by_cases hwhole : part = span
      · simp [hwhole]
      · simp [hwhole]

/-- A part that starts inside the input starts at a token, so it can be told whether it fits. -/
theorem fits?_eq_some {symbol : Symbol} {part : Span} (h : part.start < tokens.length) :
    table.fits? tokens span known symbol part = some (table.fits tokens span known symbol part) := by
  cases symbol with
  | terminal text =>
      unfold fits? fits
      rw [List.getElem?_eq_getElem h]
      by_cases hlength : part.length = 1
      · simp [hlength]
      · simp [hlength]
  | nonterminal name => rfl

/-- Inside the input the search finds the splits, and no lookup fails. -/
theorem splits?_eq_some (h : span.stop ≤ tokens.length) :
    table.splits? tokens symbols span known =
      some (splits (table.fits tokens span known) symbols span) := by
  unfold splits?
  rw [splits_eq_map]
  apply splitsM_eq_pure
  intro symbol _ part _ hlt hstop
  exact fits?_eq_some (by omega)

/-- **The search finds the splits, all of them, and each once.**  Over a span inside the input, and for
whatever is in the table and known over the span, it returns exactly the increasing boundaries from the
start of the span to its stop whose parts match the symbols one by one, in lexicographic order; none if
there are more symbols than tokens.  With more nonterminals known it returns no fewer. -/
theorem splits?_exact (table : Table) (tokens known : List String) {symbols : List Symbol} {span : Span}
    (hne : symbols ≠ []) (hstop : span.stop ≤ tokens.length) :
    ∃ found, table.splits? tokens symbols span known = some found ∧
      found = splits (table.fits tokens span known) symbols span ∧
      (∀ boundaries, boundaries ∈ found ↔
        Divides (table.Matches tokens span known) symbols span boundaries) ∧
      found.Pairwise (· < ·) ∧ found.Nodup ∧
      (span.length < symbols.length → found = []) ∧
      ∀ known', known ⊆ known' → ∃ more, table.splits? tokens symbols span known' = some more ∧
        found ⊆ more := by
  have hsorted : (splits (table.fits tokens span known) symbols span).Pairwise (· < ·) :=
    splits_pairwise symbols span
  have hnodup := hsorted.imp fun {xs ys} (hlt : xs < ys) (heq : xs = ys) =>
    List.lt_irrefl ys (heq ▸ hlt)
  refine ⟨_, splits?_eq_some hstop, rfl, fun boundaries => ?_, hsorted, hnodup, splits_eq_nil,
    fun known' hknown => ⟨_, splits?_eq_some hstop, splits_subset hknown⟩⟩
  rw [mem_splits_iff hne, isSplit_iff]
  simp only [fits_iff_matches]

/-- A table that has the nonterminal `A` over each of the spans of three tokens. -/
def crowdedTable : Table :=
  let cell : Cell := [⟨"A", []⟩]
  #[#[cell, cell, cell], #[cell, cell], #[cell]]

/-- Three tokens divide among two symbols in two ways.  One symbol gets all three of them only where it is
among the nonterminals known, although the table has it there. -/
theorem splits?_exact_crowdedTable :
    crowdedTable.splits? ["a", "b", "a"] [.nonterminal "A", .nonterminal "A"] ⟨0, 3⟩ [] =
      some [[0, 1, 3], [0, 2, 3]] ∧
    (∀ boundaries, boundaries ∈ [[0, 1, 3], [0, 2, 3]] ↔
      Divides (crowdedTable.Matches ["a", "b", "a"] ⟨0, 3⟩ []) [.nonterminal "A", .nonterminal "A"]
        ⟨0, 3⟩ boundaries) ∧
    crowdedTable.splits? ["a", "b", "a"] [.nonterminal "A"] ⟨0, 3⟩ [] = some [] ∧
    ∃ more, crowdedTable.splits? ["a", "b", "a"] [.nonterminal "A"] ⟨0, 3⟩ ["A"] = some more ∧
      [] ⊆ more ∧ more = [[0, 3]] := by
  have htwo : crowdedTable.splits? ["a", "b", "a"] [.nonterminal "A", .nonterminal "A"] ⟨0, 3⟩ [] =
      some [[0, 1, 3], [0, 2, 3]] := by decide
  have hone : crowdedTable.splits? ["a", "b", "a"] [.nonterminal "A"] ⟨0, 3⟩ [] = some [] := by decide
  have hknown : crowdedTable.splits? ["a", "b", "a"] [.nonterminal "A"] ⟨0, 3⟩ ["A"] =
      some [[0, 3]] := by decide
  obtain ⟨pairs, hpairs, -, hmem, -⟩ := splits?_exact crowdedTable ["a", "b", "a"] []
    (List.cons_ne_nil (.nonterminal "A") [.nonterminal "A"]) (Nat.le_refl (Span.stop ⟨0, 3⟩))
  obtain rfl := Option.some.inj (hpairs.symm.trans htwo)
  obtain ⟨found, hfound, -, -, -, -, -, hgrows⟩ := splits?_exact crowdedTable ["a", "b", "a"] []
    (List.cons_ne_nil (.nonterminal "A") []) (Nat.le_refl (Span.stop ⟨0, 3⟩))
  obtain rfl := Option.some.inj (hfound.symm.trans hone)
  obtain ⟨more, hmore, hsubset⟩ := hgrows ["A"] (List.nil_subset _)
  exact ⟨htwo, hmem, hone, more, hmore, hsubset, Option.some.inj (hmore.symm.trans hknown)⟩

/-- Beyond the input there is no token to look up. -/
example : crowdedTable.splits? ["a"] [.terminal "b"] ⟨1, 2⟩ [] = none := by decide

end Table

end ParseForest
