/-! # Duplicates left out

Where the same is offered more than once, it counts once, at its first place.  What is left out does not
show when lists are joined and looked at for duplicates again (`eraseDups_append_congr`), so it does not
matter whether duplicates are left out early, late or both (`eraseDups_flatMap_eraseDups`). -/

namespace ParseForest.Grammar

theorem eraseDups_eq_nil_iff {α : Type} [BEq α] {items : List α} :
    items.eraseDups = [] ↔ items = [] := by
  cases items with
  | nil => exact Iff.rfl
  | cons item items =>
      rw [List.eraseDups_cons]
      exact ⟨fun h => absurd h (List.cons_ne_nil _ _), fun h => absurd h (List.cons_ne_nil _ _)⟩

variable {α β : Type} [BEq α] [LawfulBEq α] [BEq β] [LawfulBEq β]

theorem nodup_eraseDups : (items : List α) → items.eraseDups.Nodup
  | [] => List.nodup_nil
  | item :: items => by
      rw [List.eraseDups_cons, List.nodup_cons]
      refine ⟨fun hmem => ?_, nodup_eraseDups _⟩
      have hne := (List.mem_filter.mp (List.mem_eraseDups.mp hmem)).2
      rw [beq_self_eq_true] at hne
      exact absurd hne Bool.false_ne_true
termination_by items => items.length
decreasing_by exact Nat.lt_succ_of_le (List.length_filter_le _ _)

theorem eraseDups_eq_self {items : List α} (h : items.Nodup) : items.eraseDups = items := by
  induction items with
  | nil => rfl
  | cons item items ih =>
      obtain ⟨hitem, hitems⟩ := List.nodup_cons.mp h
      have hkept : (items.filter fun other => !other == item) = items := by
        refine List.filter_eq_self.mpr fun other hother => ?_
        rw [Bool.not_eq_true', beq_eq_false_iff_ne]
        rintro rfl
        exact hitem hother
      rw [List.eraseDups_cons, hkept, ih hitems]

theorem eraseDups_concat (items : List α) (item : α) :
    (items ++ [item]).eraseDups =
      if item ∈ items then items.eraseDups else items.eraseDups ++ [item] := by
  rw [List.eraseDups_append]
  split
  · rename_i h
    have hnone : [item].removeAll items = [] :=
      List.filter_cons_of_neg (by simp [h])
    rw [hnone, List.eraseDups_nil, List.append_nil]
  · rename_i h
    have hnew : [item].removeAll items = [item] :=
      List.filter_cons_of_pos (by simp [h])
    rw [hnew]
    rfl

theorem eraseDups_map {f : α → β} (hf : Function.Injective f) :
    (items : List α) → (items.map f).eraseDups = items.eraseDups.map f
  | [] => rfl
  | item :: items => by
      have hother : (fun other => !other == f item) ∘ f = fun other => !other == item := by
        funext other
        rw [Function.comp_apply, Bool.eq_iff_iff, Bool.not_eq_true', Bool.not_eq_true',
          beq_eq_false_iff_ne, beq_eq_false_iff_ne]
        exact not_congr hf.eq_iff
      rw [List.map_cons, List.eraseDups_cons, List.eraseDups_cons, List.map_cons, List.filter_map,
        hother, eraseDups_map hf]
termination_by items => items.length
decreasing_by exact Nat.lt_succ_of_le (List.length_filter_le _ _)

/-! ### Joined lists -/

theorem filter_eraseDups (p : α → Bool) : (items : List α) →
    items.eraseDups.filter p = (items.filter p).eraseDups
  | [] => rfl
  | item :: items => by
      have hrest := filter_eraseDups p (items.filter fun other => !other == item)
      have hcomm : (items.filter fun other => !other == item).filter p =
          (items.filter p).filter fun other => !other == item := by
        rw [List.filter_filter, List.filter_filter]
        exact List.filter_congr fun other _ => Bool.and_comm _ _
      rw [List.eraseDups_cons, List.filter_cons, List.filter_cons, hrest, hcomm]
      split
      · rw [List.eraseDups_cons]
      · rename_i hitem
        have hnone : ((items.filter p).filter fun other => !other == item) = items.filter p := by
          refine List.filter_eq_self.mpr fun other hother => ?_
          rw [Bool.not_eq_true', beq_eq_false_iff_ne]
          rintro rfl
          exact hitem (List.mem_filter.mp hother).2
        rw [hnone]
termination_by items => items.length
decreasing_by exact Nat.lt_succ_of_le (List.length_filter_le _ _)

/-- Lists with the same first occurrences can stand for each other in a join. -/
theorem eraseDups_append_congr {as as' bs bs' : List α} (ha : as.eraseDups = as'.eraseDups)
    (hb : bs.eraseDups = bs'.eraseDups) : (as ++ bs).eraseDups = (as' ++ bs').eraseDups := by
  have hmem : ∀ a, a ∈ as ↔ a ∈ as' := fun a => by
    rw [← List.mem_eraseDups, ha, List.mem_eraseDups]
  have hremove : bs.removeAll as = bs.removeAll as' := by
    unfold List.removeAll
    refine List.filter_congr fun b _ => ?_
    rw [Bool.eq_iff_iff]
    simp [hmem]
  rw [List.eraseDups_append, List.eraseDups_append, ha, hremove]
  unfold List.removeAll
  rw [← filter_eraseDups, ← filter_eraseDups, hb]

/-- What an item gives need not be given again by later ones that are equal to it. -/
theorem removeAll_flatMap_filter (f : α → List β) (item : α) (items : List α) :
    ((items.filter fun other => !other == item).flatMap f).removeAll (f item) =
      (items.flatMap f).removeAll (f item) := by
  induction items with
  | nil => rfl
  | cons other items ih =>
      by_cases hother : other = item
      · have hnone : (f item).removeAll (f item) = [] := by simp [List.removeAll]
        have happend : ((other :: items).flatMap f).removeAll (f item) =
            (f other).removeAll (f item) ++ (items.flatMap f).removeAll (f item) := by
          rw [List.flatMap_cons]
          exact List.filter_append ..
        rw [List.filter_cons_of_neg (by simp [hother]), happend, hother, hnone, ih, List.nil_append]
      · rw [List.filter_cons_of_pos (by simp [hother])]
        simp only [List.removeAll, List.flatMap_cons, List.filter_append] at ih ⊢
        rw [ih]

/-- **Duplicates among the items only give duplicates.** -/
theorem eraseDups_flatMap_eraseDups (f : α → List β) : (items : List α) →
    (items.eraseDups.flatMap f).eraseDups = (items.flatMap f).eraseDups
  | [] => rfl
  | item :: items => by
      have hrest := eraseDups_flatMap_eraseDups f (items.filter fun other => !other == item)
      rw [List.eraseDups_cons, List.flatMap_cons, List.flatMap_cons,
        eraseDups_append_congr rfl hrest, List.eraseDups_append, List.eraseDups_append,
        removeAll_flatMap_filter]
termination_by items => items.length
decreasing_by exact Nat.lt_succ_of_le (List.length_filter_le _ _)

end ParseForest.Grammar
