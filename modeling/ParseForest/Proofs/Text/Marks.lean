import ParseForest.Proofs.Text.Words

/-! # The marks of a text

A text is read as its marks: its brackets, and the words between them.  White space divides marks like words
(`readsApart_marksOf`), and a bracket is a mark wherever it stands (`marksOf_append_cons`).  Put together, the
marks are what is visible of the text (`flatten_marksOf`). -/

namespace ParseForest.Text

/-- The characters that are not white space. -/
def visible (cs : List Char) : List Char :=
  cs.filter fun c => !isWhiteSpace c

/-- Whether a character is a bracket. -/
def isBracket (c : Char) : Bool :=
  c = '(' || c = ')'

/-- The characters with a space on both sides of each bracket. -/
def spread (cs : List Char) : List Char :=
  cs.flatMap fun c => if isBracket c then [' ', c, ' '] else [c]

/-- The brackets of a text and the words between them. -/
def marksOf (cs : List Char) : List (List Char) :=
  wordsOf (spread cs)

theorem isWhiteSpace_of_isBracket {c : Char} (h : isBracket c = true) : isWhiteSpace c = false := by
  simp only [isBracket, Bool.or_eq_true, decide_eq_true_eq] at h
  rcases h with rfl | rfl <;> decide

theorem isBracket_of_isWhiteSpace {c : Char} (h : isWhiteSpace c = true) : isBracket c = false := by
  by_contra hbracket
  rw [Bool.not_eq_false] at hbracket
  rw [isWhiteSpace_of_isBracket hbracket] at h
  exact Bool.false_ne_true h

theorem readsApart_marksOf : ReadsApart marksOf := by
  refine ⟨readsApart_wordsOf.nil, fun c hc before after => ?_⟩
  unfold marksOf spread
  rw [List.flatMap_append, List.flatMap_cons, isBracket_of_isWhiteSpace hc]
  exact readsApart_wordsOf.append_cons c hc _ _

theorem marksOf_append_cons {c : Char} (hc : isBracket c = true) (before after : List Char) :
    marksOf (before ++ c :: after) = marksOf before ++ [c] :: marksOf after := by
  have hword : wordsOf [c] = [[c]] :=
    wordsOf_eq_singleton (List.cons_ne_nil _ _)
      (List.forall_mem_singleton.mpr (isWhiteSpace_of_isBracket hc))
  have hspread : spread (before ++ c :: after) = spread before ++ ' ' :: ([c] ++ ' ' :: spread after) := by
    simp [spread, hc]
  unfold marksOf
  rw [hspread, readsApart_wordsOf.append_cons ' ' isWhiteSpace_space,
    readsApart_wordsOf.append_cons ' ' isWhiteSpace_space, hword]
  rfl

@[simp] theorem marksOf_nil : marksOf [] = [] :=
  readsApart_marksOf.nil

@[simp] theorem marksOf_opening (cs : List Char) : marksOf ('(' :: cs) = ['('] :: marksOf cs :=
  marksOf_append_cons (by decide) [] cs

@[simp] theorem marksOf_closing (cs : List Char) : marksOf (')' :: cs) = [')'] :: marksOf cs :=
  marksOf_append_cons (by decide) [] cs

@[simp] theorem marksOf_append_closing (before after : List Char) :
    marksOf (before ++ ')' :: after) = marksOf before ++ [')'] :: marksOf after :=
  marksOf_append_cons (by decide) before after

theorem flatten_marksOf (cs : List Char) : (marksOf cs).flatten = visible cs := by
  unfold marksOf visible
  rw [flatten_wordsOf]
  induction cs with
  | nil => rfl
  | cons c cs ih =>
      have hstep : spread (c :: cs) = (if isBracket c then [' ', c, ' '] else [c]) ++ spread cs := rfl
      rw [hstep, List.filter_append, ih]
      split
      · rename_i hc
        simp [isWhiteSpace_of_isBracket hc, isWhiteSpace_space]
      · cases hspace : isWhiteSpace c <;> simp [hspace]

theorem flatten_flatMap_marksOf (pieces : List (List Char)) :
    (pieces.flatMap marksOf).flatten = visible pieces.flatten := by
  induction pieces with
  | nil => rfl
  | cons piece pieces ih =>
      rw [List.flatMap_cons, List.flatten_append, ih, flatten_marksOf, List.flatten_cons]
      exact (List.filter_append ..).symm

end ParseForest.Text
