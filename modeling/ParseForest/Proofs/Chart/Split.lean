import Mathlib.Data.List.Basic
import ParseForest.Chart.Boundaries

/-! # Which splits there are, and in which order

A split depends on what fits inside the span only (`splits_congr`), and splits are enumerated in
strictly increasing lexicographic order (`splits_pairwise`). -/

namespace ParseForest

variable {fits fits' : Symbol → Span → Bool} {stop : Nat}

/-- The part lies between two positions and holds at least one token. -/
def Span.Within (start stop : Nat) (part : Span) : Prop :=
  start ≤ part.start ∧ part.start < part.stop ∧ part.stop ≤ stop

instance (start stop : Nat) (part : Span) : Decidable (part.Within start stop) :=
  inferInstanceAs (Decidable (_ ∧ _))

theorem Span.Within.mono {start start' stop : Nat} {part : Span} (h : part.Within start' stop)
    (hle : start ≤ start') : part.Within start stop :=
  ⟨Nat.le_trans hle h.1, h.2⟩

theorem Span.Within.length_lt {span part : Span} (h : part.Within span.start span.stop)
    (hne : part ≠ span) : part.length < span.length := by
  obtain ⟨h1, h2, h3⟩ := h
  unfold Span.length
  by_cases he : part.start = span.start ∧ part.stop = span.stop
  · cases part
    cases span
    obtain ⟨rfl, rfl⟩ := he
    exact absurd rfl hne
  · omega

theorem FitAll.within {symbols : List Symbol} {start boundary : Nat} {rest : List Nat}
    (h : FitAll fits stop symbols boundary rest) (hlt : start < boundary) :
    Span.Within start stop ⟨start, boundary⟩ := by
  have hle := h.length_le
  have hstop : boundary ≤ stop := by omega
  exact ⟨Nat.le_refl _, hlt, hstop⟩

theorem FitAll.imp {symbols : List Symbol} {start : Nat} {rest : List Nat}
    (h : FitAll fits stop symbols start rest)
    (himp : ∀ symbol part, part.Within start stop → fits symbol part = true →
      fits' symbol part = true) :
    FitAll fits' stop symbols start rest := by
  induction h with
  | done => exact .done
  | part hlt hfit hrest ih =>
      have hwithin := hrest.within hlt
      have hrest' := ih fun symbol part hw => himp symbol part (hw.mono (Nat.le_of_lt hlt))
      exact .part hlt (himp _ _ hwithin hfit) hrest'

theorem splitsFrom_congr {symbols : List Symbol} {start : Nat}
    (h : ∀ symbol ∈ symbols, ∀ part, part.Within start stop →
      fits symbol part = fits' symbol part) :
    splitsFrom fits stop symbols start = splitsFrom fits' stop symbols start := by
  induction symbols generalizing start with
  | nil => rfl
  | cons symbol symbols ih =>
      obtain ⟨hsymbol, hsymbols⟩ := List.forall_mem_cons.mp h
      cases symbols with
      | nil =>
          unfold splitsFrom
          by_cases hlt : start < stop
          · rw [hsymbol ⟨start, stop⟩ ⟨Nat.le_refl _, hlt, Nat.le_refl _⟩]
          · simp [hlt]
      | cons next rest =>
          unfold splitsFrom
          apply List.flatMap_congr
          intro boundary hb
          obtain ⟨hafter, hbefore⟩ := List.mem_range'_1.mp hb
          have hlt : start < boundary := by omega
          have hstop : boundary ≤ stop := by omega
          have hrest := ih fun other hother part hw =>
            hsymbols other hother part (hw.mono (Nat.le_of_lt hlt))
          rw [hsymbol ⟨start, boundary⟩ ⟨Nat.le_refl _, hlt, hstop⟩, hrest]

/-- Splits depend on what fits the symbols inside the span only. -/
theorem splits_congr {symbols : List Symbol} {span : Span}
    (h : ∀ symbol ∈ symbols, ∀ part, part.Within span.start span.stop →
      fits symbol part = fits' symbol part) :
    splits fits symbols span = splits fits' symbols span := by
  rw [splits_eq_map, splits_eq_map, splitsFrom_congr h]

/-! ### Order -/

theorem splitsFrom_pairwise (symbols : List Symbol) (start : Nat) :
    (splitsFrom fits stop symbols start).Pairwise (· < ·) := by
  induction symbols generalizing start with
  | nil => exact List.Pairwise.nil
  | cons symbol symbols ih =>
      cases symbols with
      | nil =>
          unfold splitsFrom
          split
          · exact List.pairwise_singleton _ _
          · exact List.Pairwise.nil
      | cons next rest =>
          unfold splitsFrom
          rw [List.pairwise_flatMap]
          constructor
          · intro boundary _
            split
            · rw [List.pairwise_map]
              exact (ih boundary).imp fun hlt => List.cons_lt_cons_iff.mpr (Or.inr ⟨rfl, hlt⟩)
            · exact List.Pairwise.nil
          · -- splits with different first boundaries compare by these
            refine (List.pairwise_lt_range' 1).imp fun hlt xs hxs ys hys => ?_
            split at hxs
            · split at hys
              · obtain ⟨_, _, rfl⟩ := List.mem_map.mp hxs
                obtain ⟨_, _, rfl⟩ := List.mem_map.mp hys
                exact List.cons_lt_cons_iff.mpr (Or.inl hlt)
              · exact absurd hys List.not_mem_nil
            · exact absurd hxs List.not_mem_nil

theorem splits_pairwise (symbols : List Symbol) (span : Span) :
    (splits fits symbols span).Pairwise (· < ·) := by
  rw [splits_eq_map, List.pairwise_map]
  exact (splitsFrom_pairwise symbols span.start).imp fun hlt =>
    List.cons_lt_cons_iff.mpr (Or.inr ⟨rfl, hlt⟩)

theorem splits_nil (span : Span) : splits fits [] span = [] := rfl

/-- A split needs a symbol. -/
theorem mem_splits {symbols : List Symbol} {span : Span} {boundaries : List Nat} :
    boundaries ∈ splits fits symbols span ↔
      symbols ≠ [] ∧ IsSplit fits symbols span boundaries := by
  by_cases h : symbols = []
  · subst h
    simp [splits_nil]
  · rw [mem_splits_iff h]
    exact ⟨fun hs => ⟨h, hs⟩, fun hs => hs.2⟩

end ParseForest
