import ParseForest.Proofs.Chart.Forest

/-! # Splits by their boundaries

A split read off its boundaries alone: they go from the start of the span to its end and increase, there
is one more of them than there are symbols, and each part between neighbours fits its symbol
(`isSplit_iff`).  So the parts of an expansion are in number what its symbols are, and the two can be
paired without a rest (`IsSplit.length_spans`); each part lies in the span and fits the symbol it is
paired with (`IsSplit.forall_mem_zip`). -/

namespace ParseForest

variable {fits : Symbol → Span → Bool} {symbols : List Symbol} {span : Span} {boundaries : List Nat}

/-- Boundaries that divide a span into one part for each symbol, by what they are. -/
structure Divides (fits : Symbol → Span → Prop) (symbols : List Symbol) (span : Span)
    (boundaries : List Nat) : Prop where
  head_eq : boundaries.head? = some span.start
  last_eq : boundaries.getLast? = some span.stop
  increasing : boundaries.Pairwise (· < ·)
  length_eq : boundaries.length = symbols.length + 1
  fit : ∀ (place : Nat) (symbol : Symbol) (start stop : Nat), symbols[place]? = some symbol →
    boundaries[place]? = some start → boundaries[place + 1]? = some stop → fits symbol ⟨start, stop⟩

/-! ### The boundaries of a split -/

theorem FitAll.divides {start stop : Nat} {rest : List Nat}
    (h : FitAll fits stop symbols start rest) :
    Divides (fun symbol part => fits symbol part = true) symbols ⟨start, stop⟩ (start :: rest) := by
  induction h with
  | done => exact ⟨rfl, rfl, by simp, rfl, by simp⟩
  | @part symbol symbols start boundary rest hlt hfit _ ih =>
      obtain ⟨-, hlast, hincreasing, hlength, hfits⟩ := ih
      refine ⟨rfl, by simpa using hlast, ?_, by simpa using hlength, ?_⟩
      · refine List.pairwise_cons.mpr ⟨fun later hlater => ?_, hincreasing⟩
        rcases List.mem_cons.mp hlater with rfl | hlater
        · exact hlt
        · exact Nat.lt_trans hlt (List.rel_of_pairwise_cons hincreasing hlater)
      · intro place other left right hother hleft hright
        cases place with
        | zero => simp_all
        | succ place => exact hfits place other left right hother hleft hright

theorem Divides.fitAll {start stop : Nat} {rest : List Nat}
    (h : Divides (fun symbol part => fits symbol part = true) symbols ⟨start, stop⟩ (start :: rest)) :
    FitAll fits stop symbols start rest := by
  induction symbols generalizing start rest with
  | nil =>
      obtain rfl : rest = [] := by simpa using h.length_eq
      obtain rfl : start = stop := by simpa using h.last_eq
      exact .done
  | cons symbol symbols ih =>
      obtain ⟨-, hlast, hincreasing, hlength, hfits⟩ := h
      cases rest with
      | nil => simp at hlength
      | cons boundary rest =>
          have hlt : start < boundary := List.rel_of_pairwise_cons hincreasing List.mem_cons_self
          refine .part hlt (hfits 0 symbol start boundary rfl rfl rfl) (ih ⟨rfl, ?_, ?_, ?_, ?_⟩)
          · simpa using hlast
          · exact hincreasing.tail
          · simpa using hlength
          · exact fun place => hfits (place + 1)

/-- **A split is what its boundaries say.** -/
theorem isSplit_iff :
    IsSplit fits symbols span boundaries ↔
      Divides (fun symbol part => fits symbol part = true) symbols span boundaries := by
  obtain ⟨start, stop⟩ := span
  constructor
  · rintro ⟨rest, rfl, hfit⟩
    exact hfit.divides
  · intro h
    obtain ⟨rest, rfl⟩ := List.head?_eq_some_iff.mp h.head_eq
    exact ⟨rest, rfl, h.fitAll⟩

/-! ### The parts of a split -/

theorem length_spans (place : Nat) (boundaries : List Nat) :
    (⟨place, boundaries⟩ : Expansion).spans.length = boundaries.length - 1 := by
  simp [Expansion.spans]

theorem IsSplit.length_spans (h : IsSplit fits symbols span boundaries) (place : Nat) :
    (⟨place, boundaries⟩ : Expansion).spans.length = symbols.length := by
  rw [ParseForest.length_spans, (isSplit_iff.mp h).length_eq, Nat.add_sub_cancel]

theorem FitAll.forall_mem_zip {start stop : Nat} {rest : List Nat}
    (h : FitAll fits stop symbols start rest) (place : Nat) :
    ∀ pair ∈ symbols.zip (⟨place, start :: rest⟩ : Expansion).spans,
      pair.2.Within start stop ∧ fits pair.1 pair.2 = true := by
  induction h with
  | done => simp
  | @part symbol symbols start boundary rest hlt hfit hrest ih =>
      rw [Chart.spans_cons, List.zip_cons_cons, List.forall_mem_cons]
      refine ⟨⟨hrest.within hlt, hfit⟩, fun pair hpair => ?_⟩
      obtain ⟨hwithin, hpair⟩ := ih pair hpair
      exact ⟨hwithin.mono (Nat.le_of_lt hlt), hpair⟩

theorem IsSplit.forall_mem_zip (h : IsSplit fits symbols span boundaries) (place : Nat) :
    ∀ pair ∈ symbols.zip (⟨place, boundaries⟩ : Expansion).spans,
      pair.2.Within span.start span.stop ∧ fits pair.1 pair.2 = true := by
  obtain ⟨rest, rfl, hfit⟩ := h
  exact hfit.forall_mem_zip place

end ParseForest
