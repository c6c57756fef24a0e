import Mathlib.Data.List.Basic
import ParseForest.Text.Line

/-! # The lines of joined lines

Lines joined by line feeds are read back as the same lines, with a line feed behind the last or
without, provided that each of them can be a line: it is not empty, has no line feed in it, and does
not end with a carriage return (`lines_intercalate`).  A text of several pieces can be a line when
each piece can (`IsLine.append`, `isLine_intercalate`). -/

namespace ParseForest.Text

/-- What two pieces with the separator between them inherit, joined pieces inherit. -/
theorem intercalate_induction {α : Type} {p : List α → Prop} {sep : List α}
    (hjoin : ∀ piece rest, p piece → p rest → p (piece ++ sep ++ rest)) {pieces : List (List α)}
    (hne : pieces ≠ []) (h : ∀ piece ∈ pieces, p piece) : p (sep.intercalate pieces) := by
  induction pieces with
  | nil => exact absurd rfl hne
  | cons piece pieces ih =>
      obtain ⟨hpiece, hpieces⟩ := List.forall_mem_cons.mp h
      by_cases hnil : pieces = []
      · rw [hnil, List.intercalate_singleton]
        exact hpiece
      · rw [List.intercalate_cons_of_ne_nil hnil]
        exact hjoin piece _ hpiece (ih hnil hpieces)

/-! ### What can be a line -/

/-- The characters are read back as one line. -/
def IsLine (cs : List Char) : Prop :=
  cs ≠ [] ∧ '\n' ∉ cs ∧ cs.getLast? ≠ some '\r'

theorem IsLine.append {before cs : List Char} (hbefore : '\n' ∉ before) (h : IsLine cs) :
    IsLine (before ++ cs) := by
  obtain ⟨hne, hfeed, hlast⟩ := h
  refine ⟨List.append_ne_nil_of_right_ne_nil before hne, ?_, ?_⟩
  · rw [List.mem_append, not_or]
    exact ⟨hbefore, hfeed⟩
  · rwa [List.getLast?_append_of_ne_nil before hne]

theorem isLine_intercalate {sep : List Char} (hsep : '\n' ∉ sep) {pieces : List (List Char)}
    (hne : pieces ≠ []) (h : ∀ piece ∈ pieces, IsLine piece) : IsLine (sep.intercalate pieces) := by
  refine intercalate_induction (fun piece rest hpiece hrest => hrest.append ?_) hne h
  rw [List.mem_append, not_or]
  exact ⟨hpiece.2.1, hsep⟩

/-! ### Reading lines back -/

variable {pieces : List (List Char)}

theorem dropReturn_of_isLine {line : List Char} (h : IsLine line) : dropReturn '\r' line = line :=
  if_neg h.2.2

theorem linesOfPieces_of_isLine (h : ∀ piece ∈ pieces, IsLine piece) :
    linesOfPieces '\r' pieces = pieces := by
  induction pieces with
  | nil => rfl
  | cons piece pieces ih =>
      obtain ⟨hpiece, hpieces⟩ := List.forall_mem_cons.mp h
      cases pieces with
      | nil => rw [linesOfPieces, if_neg (mt List.isEmpty_iff.mp hpiece.1)]
      | cons next rest => rw [linesOfPieces, dropReturn_of_isLine hpiece, ih hpieces]

theorem linesOfPieces_append_nil (h : ∀ piece ∈ pieces, IsLine piece) :
    linesOfPieces '\r' (pieces ++ [[]]) = pieces := by
  induction pieces with
  | nil => rfl
  | cons piece pieces ih =>
      obtain ⟨hpiece, hpieces⟩ := List.forall_mem_cons.mp h
      have hend : pieces ++ [[]] ≠ [] := List.append_ne_nil_of_right_ne_nil _ (List.cons_ne_nil _ _)
      obtain ⟨next, rest, hrest⟩ := List.exists_cons_of_ne_nil hend
      rw [List.cons_append, hrest, linesOfPieces, dropReturn_of_isLine hpiece, ← hrest, ih hpieces]

theorem intercalate_append_nil {α : Type} {sep : List α} {pieces : List (List α)} (hne : pieces ≠ []) :
    sep.intercalate (pieces ++ [[]]) = sep.intercalate pieces ++ sep := by
  induction pieces with
  | nil => exact absurd rfl hne
  | cons piece pieces ih =>
      have hend : pieces ++ [[]] ≠ [] := List.append_ne_nil_of_right_ne_nil _ (List.cons_ne_nil _ _)
      rw [List.cons_append, List.intercalate_cons_of_ne_nil hend]
      by_cases hnil : pieces = []
      · subst hnil
        simp
      · rw [ih hnil, List.intercalate_cons_of_ne_nil hnil, List.append_assoc (piece ++ sep)]

theorem linesBy_intercalate (hne : pieces ≠ []) (h : ∀ piece ∈ pieces, IsLine piece) :
    linesBy '\n' '\r' (['\n'].intercalate pieces) = pieces := by
  unfold linesBy
  rw [List.splitOn_intercalate '\n' (fun piece hmem => (h piece hmem).2.1) hne]
  exact linesOfPieces_of_isLine h

theorem linesBy_intercalate_feed (hne : pieces ≠ []) (h : ∀ piece ∈ pieces, IsLine piece) :
    linesBy '\n' '\r' (['\n'].intercalate pieces ++ ['\n']) = pieces := by
  have hfeed : ∀ piece ∈ pieces ++ [[]], '\n' ∉ piece := by
    intro piece hmem
    rcases List.mem_append.mp hmem with hmem | hmem
    · exact (h piece hmem).2.1
    · rw [List.mem_singleton.mp hmem]
      exact List.not_mem_nil
  have hend : pieces ++ [[]] ≠ [] := List.append_ne_nil_of_right_ne_nil _ (List.cons_ne_nil _ _)
  unfold linesBy
  rw [← intercalate_append_nil hne, List.splitOn_intercalate '\n' hfeed hend]
  exact linesOfPieces_append_nil h

/-- Joined lines are read back, with a line feed at the end or without. -/
theorem lines_intercalate {lines : List String} {feed : String} (hne : lines ≠ [])
    (h : ∀ line ∈ lines, IsLine line.toList) (hfeed : feed = "" ∨ feed = "\n") :
    Text.lines ("\n".intercalate lines ++ feed) = lines := by
  have hpieces : lines.map String.toList ≠ [] := fun hnil => hne (List.map_eq_nil_iff.mp hnil)
  have hlines : ∀ piece ∈ lines.map String.toList, IsLine piece := List.forall_mem_map.mpr h
  have hread : linesBy '\n' '\r' ("\n".intercalate lines ++ feed).toList =
      lines.map String.toList := by
    rw [String.toList_append, String.toList_intercalate]
    rcases hfeed with rfl | rfl
    · rw [String.toList_empty, List.append_nil]
      exact linesBy_intercalate hpieces hlines
    · exact linesBy_intercalate_feed hpieces hlines
  unfold Text.lines
  rw [hread, List.map_map]
  exact (List.map_congr_left fun line _ => String.ofList_toList).trans (List.map_id lines)

end ParseForest.Text
