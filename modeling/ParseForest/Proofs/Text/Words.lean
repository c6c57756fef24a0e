import Mathlib.Data.List.Basic
import ParseForest.Text.WhiteSpace

/-! # Reading texts between white space

Where white space divides what is read of a text (`ReadsApart`), white space at the ends makes no difference,
and texts with spaces between them are read one after the other, even if some of them are empty or have
spaces of their own (`ReadsApart.spaced`).  Words are read in this way (`readsApart_wordsOf`), and put
together they are all that is no white space (`flatten_wordsOf`). -/

namespace ParseForest.Text

/-! ### Parts of a split list -/

theorem flatten_splitOnP {α : Type} (p : α → Bool) (items : List α) :
    (items.splitOnP p).flatten = items.filter fun item => !p item := by
  induction items with
  | nil => rfl
  | cons item items ih =>
      obtain ⟨part, parts, hparts⟩ := List.exists_cons_of_ne_nil (List.splitOnP_ne_nil p items)
      rw [List.splitOnP_cons_eq_if_modifyHead, List.filter_cons, ← ih, hparts]
      cases hsep : p item <;> simp

theorem not_of_mem_splitOnP {α : Type} {p : α → Bool} {items part : List α} {a : α}
    (h : part ∈ items.splitOnP p) (ha : a ∈ part) : p a = false := by
  have hmem := List.mem_flatten_of_mem h ha
  rw [flatten_splitOnP, List.mem_filter, Bool.not_eq_true'] at hmem
  exact hmem.2

/-! ### White space divides -/

theorem isWhiteSpace_space : isWhiteSpace ' ' = true := by decide

/-- What is read of a text is read on the two sides of white space, one after the other. -/
structure ReadsApart {α : Type} (read : List Char → List α) : Prop where
  nil : read [] = []
  append_cons : ∀ c, isWhiteSpace c = true → ∀ before after,
    read (before ++ c :: after) = read before ++ read after

namespace ReadsApart

variable {α : Type} {read : List Char → List α} {blank : List Char}

theorem blank_append (h : ReadsApart read) (hblank : ∀ c ∈ blank, isWhiteSpace c = true)
    (cs : List Char) : read (blank ++ cs) = read cs := by
  induction blank with
  | nil => rfl
  | cons c blank ih =>
      obtain ⟨hc, hrest⟩ := List.forall_mem_cons.mp hblank
      have hfirst := h.append_cons c hc [] (blank ++ cs)
      rw [h.nil, List.nil_append, List.nil_append] at hfirst
      rw [List.cons_append, hfirst, ih hrest]

theorem append_blank (h : ReadsApart read) (hblank : ∀ c ∈ blank, isWhiteSpace c = true)
    (cs : List Char) : read (cs ++ blank) = read cs := by
  cases blank with
  | nil => rw [List.append_nil]
  | cons c blank =>
      obtain ⟨hc, hrest⟩ := List.forall_mem_cons.mp hblank
      have hnone := h.blank_append hrest []
      rw [h.append_cons c hc, ← List.append_nil blank, hnone, h.nil, List.append_nil]

theorem trimEnd (h : ReadsApart read) (cs : List Char) : read (trimEnd cs) = read cs := by
  have hblank : ∀ c ∈ (cs.reverse.takeWhile isWhiteSpace).reverse, isWhiteSpace c = true :=
    fun c hc => List.all_eq_true.mp List.all_takeWhile c (List.mem_reverse.mp hc)
  have hcs : Text.trimEnd cs ++ (cs.reverse.takeWhile isWhiteSpace).reverse = cs := by
    unfold Text.trimEnd
    rw [← List.reverse_append, List.takeWhile_append_dropWhile, List.reverse_reverse]
  rw [← h.append_blank hblank, hcs]

/-- **Texts with spaces between them are read one after the other.** -/
theorem spaced (h : ReadsApart read) (texts : List String) :
    read (spaced texts).toList = texts.flatMap fun text => read text.toList := by
  unfold Text.spaced
  induction texts with
  | nil => exact h.nil
  | cons text texts ih =>
      by_cases hlast : texts = []
      · simp [hlast]
      · rw [String.intercalate_cons_of_ne_nil hlast, List.flatMap_cons, ← ih,
          ← h.append_cons ' ' isWhiteSpace_space]
        simp

end ReadsApart

/-! ### Words -/

theorem readsApart_wordsOf : ReadsApart wordsOf := by
  refine ⟨by simp [wordsOf], fun c hc before after => ?_⟩
  unfold wordsOf
  rw [List.splitOnP_append_cons before after hc, List.filter_append]

theorem wordsOf_eq_singleton {cs : List Char} (hne : cs ≠ []) (h : ∀ c ∈ cs, isWhiteSpace c = false) :
    wordsOf cs = [cs] := by
  unfold wordsOf
  rw [List.splitOnP_eq_singleton h]
  simp [hne]

theorem flatten_wordsOf (cs : List Char) :
    (wordsOf cs).flatten = cs.filter fun c => !isWhiteSpace c := by
  unfold wordsOf
  rw [List.flatten_filter_not_isEmpty, flatten_splitOnP]

/-- **The words of texts with spaces between them are those of each text.** -/
theorem words_spaced (texts : List String) : words (spaced texts) = texts.flatMap words := by
  unfold words
  rw [readsApart_wordsOf.spaced, List.map_flatMap]

end ParseForest.Text
