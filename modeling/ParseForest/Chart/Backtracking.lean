import ParseForest.Chart.Split

/-! # The search for splits, without its stack

What the search finds behind a part does not depend on how the part was reached, so the splits can be
listed by recursion on the symbols alone (`splitsFrom`).  The search finds these, in this order, and gives
the stack of boundaries back as it got it: trying one end does so (`tryEnd_eq_pure`), hence a loop over
ends (`foldlM_eq_pure`), hence the whole search (`extend_eq_pure`).  It asks only about parts that hold a
token and lie between the two positions, so it comes to its end wherever these questions have answers. -/

namespace ParseForest

/-- The boundaries after `start` of every split of the rest of the span, up to `stop`.  A symbol
leaves at least one token for each symbol behind it, and the last one has to reach the stop. -/
def splitsFrom (fits : Symbol → Span → Bool) (stop : Nat) : List Symbol → Nat → List (List Nat)
  | [], _ => []
  | [last], start =>
    if start < stop && fits last ⟨start, stop⟩ then [[stop]] else []
  | symbol :: next :: rest, start =>
    (List.range' (start + 1) (stop - (rest.length + 1) - start)).flatMap fun boundary =>
      if fits symbol ⟨start, boundary⟩ then
        (splitsFrom fits stop (next :: rest) boundary).map (boundary :: ·)
      else []

namespace SplitSearch

variable {m : Type → Type} [Monad m] [LawfulMonad m] {fits : Symbol → Span → m Bool}
  {answer : Symbol → Span → Bool} {symbols : List Symbol} {start stop : Nat} {search : SplitSearch}

/-- The search with more splits found. -/
def add (search : SplitSearch) (more : List (List Nat)) : SplitSearch :=
  { search with found := search.found ++ more }

@[simp] theorem add_nil (search : SplitSearch) : search.add [] = search := by
  simp [add]

@[simp] theorem add_add (search : SplitSearch) (more others : List (List Nat)) :
    (search.add more).add others = search.add (more ++ others) := by
  simp [add]

@[simp] theorem pop_add_push (search : SplitSearch) (boundary : Nat) (more : List (List Nat)) :
    ((search.push boundary).add more).pop = search.add more := by
  simp [push, add, pop]

theorem tryEnd_eq_pure {symbol : Symbol} {deeper : Nat → SplitSearch → m SplitSearch}
    {boundary : Nat} {more : List (List Nat)}
    (hfits : start < boundary → fits symbol ⟨start, boundary⟩ = pure (answer symbol ⟨start, boundary⟩))
    (hdeeper : start < boundary →
      deeper boundary (search.push boundary) = pure ((search.push boundary).add more)) :
    tryEnd fits symbol start deeper search boundary = pure (search.add
      (if start < boundary && answer symbol ⟨start, boundary⟩ then more else [])) := by
  unfold tryEnd
  by_cases hlt : start < boundary
  · rw [if_pos hlt, hfits hlt, hdeeper hlt]
    cases answer symbol ⟨start, boundary⟩ with
    | true => simp [hlt]
    | false => simp
  · simp [hlt]

theorem foldlM_eq_pure {step : SplitSearch → Nat → m SplitSearch} {more : Nat → List (List Nat)}
    {ends : List Nat}
    (h : ∀ boundary ∈ ends, ∀ other : SplitSearch, other.boundaries = search.boundaries →
      step other boundary = pure (other.add (more boundary))) :
    ends.foldlM step search = pure (search.add (ends.flatMap more)) := by
  induction ends generalizing search with
  | nil => simp
  | cons boundary ends ih =>
      obtain ⟨hstep, hrest⟩ := List.forall_mem_cons.mp h
      have hloop : ends.foldlM step (search.add (more boundary)) =
          pure ((search.add (more boundary)).add (ends.flatMap more)) := ih hrest
      rw [List.foldlM_cons, hstep search rfl, pure_bind, hloop, add_add, List.flatMap_cons]

theorem extend_last_eq_pure {last : Symbol}
    (hfits : start < stop → fits last ⟨start, stop⟩ = pure (answer last ⟨start, stop⟩)) :
    extend fits stop [last] start search = pure (search.add
      ((splitsFrom answer stop [last] start).map (search.boundaries ++ ·))) := by
  have hend : tryEnd fits last start (extend fits stop []) search stop = pure (search.add
      (if start < stop && answer last ⟨start, stop⟩ then [search.boundaries ++ [stop]] else [])) := by
    apply tryEnd_eq_pure hfits
    intro _
    simp [extend, record, push, add]
  show [stop].foldlM (tryEnd fits last start (extend fits stop [])) search = _
  rw [List.foldlM_cons, hend, pure_bind, List.foldlM_nil]
  unfold splitsFrom
  split
  · rfl
  · rfl

/-- **The search finds the splits behind its boundaries, and leaves the boundaries as they are.** -/
theorem extend_eq_pure (hne : symbols ≠ [])
    (h : ∀ symbol ∈ symbols, ∀ part : Span, start ≤ part.start → part.start < part.stop →
      part.stop ≤ stop → fits symbol part = pure (answer symbol part)) :
    extend fits stop symbols start search = pure (search.add
      ((splitsFrom answer stop symbols start).map (search.boundaries ++ ·))) := by
  induction symbols generalizing start search with
  | nil => exact absurd rfl hne
  | cons symbol behind ih =>
      obtain ⟨hsymbol, hbehind⟩ := List.forall_mem_cons.mp h
      cases behind with
      | nil =>
          apply extend_last_eq_pure
          exact fun hlt => hsymbol ⟨start, stop⟩ (Nat.le_refl _) hlt (Nat.le_refl _)
      | cons next rest =>
          have hends : ends start stop (next :: rest).length =
              List.range' (start + 1) (stop - (rest.length + 1) - start) := rfl
          unfold extend splitsFrom
          rw [hends, List.map_flatMap]
          apply foldlM_eq_pure
          intro boundary hboundary other hother
          obtain ⟨hafter, hbefore⟩ := List.mem_range'_1.mp hboundary
          have hlt : start < boundary := by omega
          have hstop : boundary ≤ stop := by omega
          -- behind this end the search stands on a longer stack, and asks about parts further right
          have hdeeper : extend fits stop (next :: rest) boundary (other.push boundary) =
              pure ((other.push boundary).add ((splitsFrom answer stop (next :: rest) boundary).map
                ((other.push boundary).boundaries ++ ·))) :=
            ih (List.cons_ne_nil next rest) fun symbol hs part hle =>
              hbehind symbol hs part (by omega)
          rw [tryEnd_eq_pure (fun hlt => hsymbol ⟨start, boundary⟩ (Nat.le_refl _) hlt hstop)
            fun _ => hdeeper]
          cases answer symbol ⟨start, boundary⟩ with
          | true => simp [hlt, hother, push, Function.comp_def]
          | false => simp

end SplitSearch

/-- Where it can be told of every part inside the span whether it fits, the splits are found. -/
theorem splitsM_eq_pure {m : Type → Type} [Monad m] [LawfulMonad m] {fits : Symbol → Span → m Bool}
    {answer : Symbol → Span → Bool} {symbols : List Symbol} {span : Span}
    (h : ∀ symbol ∈ symbols, ∀ part : Span, span.start ≤ part.start → part.start < part.stop →
      part.stop ≤ span.stop → fits symbol part = pure (answer symbol part)) :
    splitsM fits symbols span =
      pure ((splitsFrom answer span.stop symbols span.start).map (span.start :: ·)) := by
  unfold splitsM
  cases symbols with
  | nil => rfl
  | cons symbol behind =>
      rw [SplitSearch.extend_eq_pure (List.cons_ne_nil symbol behind) h]
      simp [SplitSearch.start, SplitSearch.add]

theorem splits_eq_map (fits : Symbol → Span → Bool) (symbols : List Symbol) (span : Span) :
    splits fits symbols span =
      (splitsFrom fits span.stop symbols span.start).map (span.start :: ·) := by
  unfold splits
  rw [splitsM_eq_pure fun _ _ _ _ _ _ => rfl, Id.run_pure]

end ParseForest
