/-! # Sorted names

Lists of names are shown in the order of their code points.  The sorted list depends on which names
are given, not on their order (`sorted_eq_of_perm`), and increases strictly when none is repeated
(`sorted_pairwise_lt`).  So it is with other items that are sorted by their names, when these are
different (`mergeSort_eq_of_perm`). -/

namespace ParseForest.Text

/-! ### Items with names -/

theorem pairwise_mergeSort {α : Type} (name : α → String) (items : List α) :
    (items.mergeSort fun a b => name a ≤ name b).Pairwise fun a b => name a ≤ name b := by
  refine (List.pairwise_mergeSort (fun a b c hab hbc => ?_) (fun a b => ?_) items).imp
    of_decide_eq_true
  · exact decide_eq_true (String.le_trans (of_decide_eq_true hab) (of_decide_eq_true hbc))
  · rw [Bool.or_eq_true, decide_eq_true_eq, decide_eq_true_eq]
    exact String.le_total (name a) (name b)

/-- Where no two items have the same name, it does not matter in which order they are given. -/
theorem mergeSort_eq_of_perm {α : Type} {name : α → String} {items items' : List α}
    (hname : ∀ a ∈ items, ∀ b ∈ items, name a = name b → a = b) (h : items.Perm items') :
    (items.mergeSort fun a b => name a ≤ name b) =
      items'.mergeSort fun a b => name a ≤ name b := by
  have hperm := (List.mergeSort_perm items fun a b => name a ≤ name b).trans
    (h.trans (List.mergeSort_perm items' fun a b => name a ≤ name b).symm)
  refine hperm.eq_of_pairwise (fun a b ha hb hab hba => ?_) (pairwise_mergeSort name items)
    (pairwise_mergeSort name items')
  exact hname a (List.mem_mergeSort.mp ha) b (h.mem_iff.mpr (List.mem_mergeSort.mp hb))
    (String.le_antisymm hab hba)

/-! ### Names -/

/-- The given names in increasing order; a repeated name stays repeated. -/
def sorted (names : List String) : List String :=
  names.mergeSort fun a b => a ≤ b

theorem mem_sorted {name : String} {names : List String} : name ∈ sorted names ↔ name ∈ names :=
  List.mem_mergeSort

theorem sorted_perm (names : List String) : (sorted names).Perm names :=
  List.mergeSort_perm _ _

theorem sorted_pairwise_le (names : List String) : (sorted names).Pairwise (· ≤ ·) :=
  pairwise_mergeSort id names

theorem sorted_pairwise_lt {names : List String} (h : names.Nodup) :
    (sorted names).Pairwise (· < ·) := by
  have hne : (sorted names).Pairwise (· ≠ ·) := (sorted_perm names).nodup_iff.mpr h
  refine ((sorted_pairwise_le names).and hne).imp fun ⟨hle, hne⟩ => ?_
  rw [← String.not_le]
  exact fun hge => hne (String.le_antisymm hle hge)

theorem sorted_eq_of_perm {names names' : List String} (h : names.Perm names') :
    sorted names = sorted names' :=
  mergeSort_eq_of_perm (fun _ _ _ _ heq => heq) h

end ParseForest.Text
