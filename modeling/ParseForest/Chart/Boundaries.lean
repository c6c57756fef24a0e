import ParseForest.Chart.Backtracking
import ParseForest.Chart.Basic

/-! # Splits, by what they are

A split of a span among symbols is a strictly increasing list of boundaries from the start of the
span to its end, one more than there are symbols, such that each part fits its symbol.  The
enumeration in `splits` misses none of them, although it leaves out the boundaries behind which
too few tokens are left for the remaining symbols (`mem_splits_iff`). -/

namespace ParseForest

/-- Each part between neighbouring boundaries fits its symbol, and the boundaries increase. -/
inductive FitAll (fits : Symbol → Span → Bool) (stop : Nat) : List Symbol → Nat → List Nat → Prop
  | done : FitAll fits stop [] stop []
  | part {symbol : Symbol} {symbols : List Symbol} {start boundary : Nat} {rest : List Nat} :
      start < boundary → fits symbol ⟨start, boundary⟩ = true →
      FitAll fits stop symbols boundary rest →
      FitAll fits stop (symbol :: symbols) start (boundary :: rest)

/-- The boundaries split the span among the symbols. -/
def IsSplit (fits : Symbol → Span → Bool) (symbols : List Symbol) (span : Span)
    (boundaries : List Nat) : Prop :=
  ∃ rest, boundaries = span.start :: rest ∧ FitAll fits span.stop symbols span.start rest

theorem FitAll.length_le {fits : Symbol → Span → Bool} {stop : Nat} {symbols : List Symbol}
    {start : Nat} {rest : List Nat} (h : FitAll fits stop symbols start rest) :
    start + symbols.length ≤ stop := by
  induction h with
  | done => exact Nat.le_refl _
  | part hlt _ _ ih =>
    rw [List.length_cons]
    omega

theorem mem_splitsFrom_iff {fits : Symbol → Span → Bool} {stop : Nat} {symbols : List Symbol}
    {start : Nat} {rest : List Nat} (h : symbols ≠ []) :
    rest ∈ splitsFrom fits stop symbols start ↔ FitAll fits stop symbols start rest := by
  induction symbols generalizing start rest with
  | nil => exact absurd rfl h
  | cons symbol symbols ih =>
    cases symbols with
    | nil =>
      rw [splitsFrom]
      constructor
      · intro hm
        split at hm
        · rename_i hc
          rw [Bool.and_eq_true, decide_eq_true_eq] at hc
          rw [List.mem_singleton] at hm
          exact hm ▸ .part hc.1 hc.2 .done
        · exact absurd hm List.not_mem_nil
      · intro hf
        cases hf with
        | part hlt hfit hrest =>
          cases hrest
          simp [hlt, hfit]
    | cons next symbols =>
      rw [splitsFrom, List.mem_flatMap]
      constructor
      · rintro ⟨boundary, hb, hm⟩
        split at hm
        · rename_i hfit
          obtain ⟨later, hl, rfl⟩ := List.mem_map.1 hm
          have hb' := List.mem_range'_1.1 hb
          exact .part (by omega) hfit ((ih (List.cons_ne_nil _ _)).1 hl)
        · exact absurd hm List.not_mem_nil
      · intro hf
        cases hf with
        | @part _ _ _ boundary later hlt hfit hrest =>
          have hle := hrest.length_le
          rw [List.length_cons] at hle
          refine ⟨boundary, List.mem_range'_1.2 (by omega), ?_⟩
          rw [if_pos hfit]
          exact List.mem_map.2 ⟨later, (ih (List.cons_ne_nil _ _)).2 hrest, rfl⟩

/-- The enumeration lists exactly the splits. -/
theorem mem_splits_iff {fits : Symbol → Span → Bool} {symbols : List Symbol} {span : Span}
    {boundaries : List Nat} (h : symbols ≠ []) :
    boundaries ∈ splits fits symbols span ↔ IsSplit fits symbols span boundaries := by
  rw [splits_eq_map, List.mem_map]
  constructor
  · rintro ⟨rest, hr, rfl⟩
    exact ⟨rest, rfl, (mem_splitsFrom_iff h).1 hr⟩
  · rintro ⟨rest, rfl, hf⟩
    exact ⟨rest, (mem_splitsFrom_iff h).2 hf, rfl⟩

end ParseForest
