import ParseForest.Proofs.Text.Marks
import ParseForest.Tree.Position
import ParseForest.Tree.Render
import ParseForest.Tree.Untyped

/-! # What the renderings of a tree show

The marks of a tree are its texts, with a bracket before the label of each node and one behind its children.
Both renderings are read as the marks of the tree (`marksOf_bracketed`, `marksOf_indented`); on which line and
how deep these stand makes no difference.  Hence without white space both are the same text
(`visible_indented`).

Where texts are plain, each is one mark, and the marks of a tree determine it up to the kind of its labels
(`untyped_of_marks`), so both renderings can be read back (`renderings_read_back`). -/

namespace ParseForest

open Text

namespace Tree

/-! ### Marks of a tree -/

mutual

/-- The texts of a tree, with a bracket before the label of each node and one behind its children. -/
def marks : Tree → List (List Char)
  | leaf text => [text.toList]
  | node label children => ['('] :: label.text.toList :: (marksAll children ++ [[')']])

/-- The texts of neighbouring trees with their brackets. -/
def marksAll : List Tree → List (List Char)
  | [] => []
  | t :: ts => marks t ++ marksAll ts

end

theorem marksOf_bracket (label : Symbol) (parts : List String) :
    marksOf (bracket label parts).toList =
      ['('] :: marksOf label.text.toList ++ (parts.flatMap fun part => marksOf part.toList) ++ [[')']] := by
  unfold bracket
  simp [readsApart_marksOf.spaced]

mutual

/-- **The rendering in one line is read as the marks of the tree.** -/
theorem marksOf_bracketed : (t : Tree) → marksOf t.bracketed.toList = t.marks.flatMap marksOf
  | leaf text => by simp [bracketed, marks]
  | node label children => by
      simp [bracketed, marks, marksOf_bracket, marksOf_bracketedAll children]

theorem marksOf_bracketedAll : (ts : List Tree) →
    ((bracketedAll ts).flatMap fun part => marksOf part.toList) = (marksAll ts).flatMap marksOf
  | [] => rfl
  | t :: ts => by simp [bracketedAll, marksAll, marksOf_bracketed t, marksOf_bracketedAll ts]

end

theorem marksOf_indentedLine (depth : Nat) (text : String) (rest : List Char) :
    marksOf ((indentedLine depth text).toList ++ rest) = marksOf text.toList ++ marksOf rest := by
  have hblank : ∀ c ∈ List.replicate (2 * depth) ' ', isWhiteSpace c = true :=
    fun c hc => List.eq_of_mem_replicate hc ▸ isWhiteSpace_space
  unfold indentedLine
  simp only [String.toList_append, String.toList_ofList, List.append_assoc]
  rw [readsApart_marksOf.blank_append hblank]
  exact readsApart_marksOf.append_cons '\n' (by decide) _ _

mutual

/-- At any depth the lines of a tree are read as its marks, before whatever follows. -/
theorem marksOf_indentedAt (depth : Nat) (rest : List Char) : (t : Tree) →
    marksOf ((t.indentedAt depth).toList ++ rest) = t.marks.flatMap marksOf ++ marksOf rest
  | leaf text => by simp [indentedAt, marks, marksOf_indentedLine]
  | node label children => by
      rw [indentedAt]
      split
      · rw [marksOf_indentedLine, ← marksOf_bracketed (node label children), bracketed]
      · simp [marks, marksOf_indentedLine, marksOf_indentedAllAt (depth + 1) _ children]

theorem marksOf_indentedAllAt (depth : Nat) (rest : List Char) : (ts : List Tree) →
    marksOf ((indentedAllAt depth ts).toList ++ rest) = (marksAll ts).flatMap marksOf ++ marksOf rest
  | [] => rfl
  | t :: ts => by
      simp [indentedAllAt, marksAll, marksOf_indentedAt depth _ t, marksOf_indentedAllAt depth rest ts]

end

/-- **The indented rendering is read as the marks of the tree.** -/
theorem marksOf_indented (t : Tree) : marksOf t.indented.toList = t.marks.flatMap marksOf := by
  have hlines := marksOf_indentedAt 0 [] t
  rw [List.append_nil, marksOf_nil, List.append_nil] at hlines
  rw [indented, String.toList_ofList, readsApart_marksOf.trimEnd, hlines]

/-- **Without white space both renderings are the same,** for every tree: its texts with a bracket before the
label of each node and one behind its children, whatever white space the texts have. -/
theorem visible_indented (t : Tree) :
    visible t.indented.toList = visible t.bracketed.toList ∧
      visible t.bracketed.toList = visible t.marks.flatten := by
  rw [← flatten_marksOf, ← flatten_marksOf, marksOf_indented, marksOf_bracketed, flatten_flatMap_marksOf]
  exact ⟨rfl, rfl⟩

/-! ### Plain trees -/

/-- A text that is one mark: it is not empty, and has no white space and no bracket in it. -/
def IsPlain (text : String) : Prop :=
  text ≠ "" ∧ ∀ c ∈ text.toList, isWhiteSpace c = false ∧ c ≠ '(' ∧ c ≠ ')'

-- Over the characters of the text: there is an instance that runs over all characters, too.
instance (text : String) : Decidable (IsPlain text) :=
  @instDecidableAnd _ _ inferInstance (List.decidableBAll _ text.toList)

/-- All labels and leaves of a tree are plain. -/
def Plain (t : Tree) : Prop :=
  ∀ u ∈ t.subtrees, IsPlain u.root.text

instance (t : Tree) : Decidable t.Plain :=
  List.decidableBAll _ t.subtrees

theorem plain_leaf {text : String} : (leaf text).Plain ↔ IsPlain text :=
  List.forall_mem_singleton

theorem plain_node {label : Symbol} {children : List Tree} :
    (node label children).Plain ↔ IsPlain label.text ∧ ∀ child ∈ children, child.Plain :=
  forall_mem_subtrees_node

theorem IsPlain.marksOf_eq {text : String} (h : IsPlain text) : marksOf text.toList = [text.toList] := by
  obtain ⟨hne, hplain⟩ := h
  have hspread : spread text.toList = text.toList := by
    unfold spread
    rw [List.flatMap_congr fun c hc => if_neg (by simp [isBracket, hplain c hc]), List.flatMap_singleton']
  unfold marksOf
  rw [hspread]
  exact wordsOf_eq_singleton (by simpa using hne) fun c hc => (hplain c hc).1

theorem IsPlain.ne_bracket {text : String} (h : IsPlain text) :
    text.toList ≠ ['('] ∧ text.toList ≠ [')'] := by
  refine ⟨fun htext => ?_, fun htext => ?_⟩
  · exact (h.2 '(' (by simp [htext])).2.1 rfl
  · exact (h.2 ')' (by simp [htext])).2.2 rfl

mutual

theorem Plain.flatMap_marks : {t : Tree} → t.Plain → t.marks.flatMap marksOf = t.marks
  | leaf text, h => by simp [marks, (plain_leaf.mp h).marksOf_eq]
  | node label children, h => by
      obtain ⟨hlabel, hchildren⟩ := plain_node.mp h
      simp [marks, hlabel.marksOf_eq, flatMap_marksAll hchildren]

theorem flatMap_marksAll : {ts : List Tree} → (∀ t ∈ ts, t.Plain) →
    (marksAll ts).flatMap marksOf = marksAll ts
  | [], _ => rfl
  | t :: ts, h => by
      obtain ⟨ht, hts⟩ := List.forall_mem_cons.mp h
      simp [marksAll, ht.flatMap_marks, flatMap_marksAll hts]

end

/-! ### Reading back -/

theorem Plain.marks_append_ne {t : Tree} (h : t.Plain) (rest rest' : List (List Char)) :
    t.marks ++ rest ≠ [')'] :: rest' := by
  cases t with
  | leaf text =>
      intro hmarks
      exact (plain_leaf.mp h).ne_bracket.2 (List.cons.inj hmarks).1
  | node label children => simp [marks]

mutual

/-- The marks of a plain tree tell the tree, and where its marks end. -/
theorem untyped_of_marks_append : {s t : Tree} → {rest rest' : List (List Char)} → s.Plain → t.Plain →
    s.marks ++ rest = t.marks ++ rest' → s.untyped = t.untyped ∧ rest = rest'
  | leaf a, leaf b, rest, rest', _, _, h => by
      simp only [marks, List.singleton_append, List.cons.injEq, String.toList_inj] at h
      exact ⟨congrArg leaf h.1, h.2⟩
  | leaf a, node label children, rest, rest', hs, _, h => by
      simp only [marks, List.cons_append, List.cons.injEq] at h
      exact absurd h.1 (plain_leaf.mp hs).ne_bracket.1
  | node label children, leaf b, rest, rest', _, ht, h => by
      simp only [marks, List.cons_append, List.cons.injEq] at h
      exact absurd h.1.symm (plain_leaf.mp ht).ne_bracket.1
  | node label children, node label' children', rest, rest', hs, ht, h => by
      simp only [marks, List.cons_append, List.append_assoc, List.cons.injEq, String.toList_inj,
        true_and] at h
      obtain ⟨hlabel, hmarks⟩ := h
      obtain ⟨hchildren, hrest⟩ :=
        untypedAll_of_marksAll_append (plain_node.mp hs).2 (plain_node.mp ht).2 hmarks
      rw [untyped, untyped, hlabel, hchildren]
      exact ⟨rfl, hrest⟩

theorem untypedAll_of_marksAll_append : {ss ts : List Tree} → {rest rest' : List (List Char)} →
    (∀ s ∈ ss, s.Plain) → (∀ t ∈ ts, t.Plain) →
    marksAll ss ++ [')'] :: rest = marksAll ts ++ [')'] :: rest' →
    untypedAll ss = untypedAll ts ∧ rest = rest'
  | [], [], rest, rest', _, _, h => ⟨rfl, (List.cons.inj h).2⟩
  | [], t :: ts, rest, rest', _, ht, h => by
      rw [marksAll, marksAll, List.append_assoc] at h
      exact absurd h.symm ((List.forall_mem_cons.mp ht).1.marks_append_ne _ rest)
  | s :: ss, [], rest, rest', hs, _, h => by
      rw [marksAll, marksAll, List.append_assoc] at h
      exact absurd h ((List.forall_mem_cons.mp hs).1.marks_append_ne _ rest')
  | s :: ss, t :: ts, rest, rest', hs, ht, h => by
      obtain ⟨hs, hss⟩ := List.forall_mem_cons.mp hs
      obtain ⟨ht, hts⟩ := List.forall_mem_cons.mp ht
      rw [marksAll, marksAll, List.append_assoc, List.append_assoc] at h
      obtain ⟨hfirst, hmarks⟩ := untyped_of_marks_append hs ht h
      obtain ⟨hothers, hrest⟩ := untypedAll_of_marksAll_append hss hts hmarks
      rw [untypedAll, untypedAll, hfirst, hothers]
      exact ⟨rfl, hrest⟩

end

theorem untyped_of_marks {s t : Tree} (hs : s.Plain) (ht : t.Plain) (h : s.marks = t.marks) :
    s.untyped = t.untyped := by
  have happend : s.marks ++ [] = t.marks ++ [] := by rw [h]
  exact (untyped_of_marks_append hs ht happend).1

/-! ### Labels of either kind -/

mutual

theorem bracketed_untyped : (t : Tree) → t.untyped.bracketed = t.bracketed
  | leaf _ => rfl
  | node label children => by
      rw [untyped, bracketed, bracketed, bracketedAll_untypedAll children]
      rfl

theorem bracketedAll_untypedAll : (ts : List Tree) → bracketedAll (untypedAll ts) = bracketedAll ts
  | [] => rfl
  | t :: ts => by
      rw [untypedAll, bracketedAll, bracketedAll, bracketed_untyped t, bracketedAll_untypedAll ts]

end

theorem isLeaf_untyped (t : Tree) : t.untyped.isLeaf = t.isLeaf := by
  cases t <;> rfl

mutual

theorem indentedAt_untyped (depth : Nat) : (t : Tree) → t.untyped.indentedAt depth = t.indentedAt depth
  | leaf _ => rfl
  | node label children => by
      have hleaves : (untypedAll children).all isLeaf = children.all isLeaf := by
        simp [untypedAll_eq, Function.comp_def, isLeaf_untyped]
      rw [untyped, indentedAt, indentedAt, hleaves, bracketedAll_untypedAll,
        indentedAllAt_untypedAll (depth + 1) children]
      rfl

theorem indentedAllAt_untypedAll (depth : Nat) : (ts : List Tree) →
    indentedAllAt depth (untypedAll ts) = indentedAllAt depth ts
  | [] => rfl
  | t :: ts => by
      rw [untypedAll, indentedAllAt, indentedAllAt, indentedAt_untyped depth t,
        indentedAllAt_untypedAll depth ts]

end

/-- **Both renderings can be read back.**  Two trees with plain labels and leaves have the same rendering in
one line, or the same indented rendering, exactly when they are equal up to the kind of their labels. -/
theorem renderings_read_back {s t : Tree} (hs : s.Plain) (ht : t.Plain) :
    (s.bracketed = t.bracketed ↔ s.untyped = t.untyped) ∧
      (s.indented = t.indented ↔ s.untyped = t.untyped) := by
  refine ⟨⟨fun h => ?_, fun h => ?_⟩, ⟨fun h => ?_, fun h => ?_⟩⟩
  · have hmarks : marksOf s.bracketed.toList = marksOf t.bracketed.toList := by rw [h]
    rw [marksOf_bracketed, marksOf_bracketed, hs.flatMap_marks, ht.flatMap_marks] at hmarks
    exact untyped_of_marks hs ht hmarks
  · rw [← bracketed_untyped s, ← bracketed_untyped t, h]
  · have hmarks : marksOf s.indented.toList = marksOf t.indented.toList := by rw [h]
    rw [marksOf_indented, marksOf_indented, hs.flatMap_marks, ht.flatMap_marks] at hmarks
    exact untyped_of_marks hs ht hmarks
  · rw [indented, indented, ← indentedAt_untyped 0 s, ← indentedAt_untyped 0 t, h]

/-- A childless node beside a leaf. -/
def childlessTree : Tree :=
  node (.nonterminal "E") [node (.terminal "+") [], leaf "a"]

/-- The kind of a label shows in neither rendering, but a childless node is told from a leaf in both. -/
theorem renderings_read_back_childlessTree :
    childlessTree.Plain ∧ childlessTree.untyped.Plain ∧
      (node (.nonterminal "E") [leaf "+", leaf "a"]).Plain ∧
      childlessTree.bracketed = childlessTree.untyped.bracketed ∧
      childlessTree.indented = childlessTree.untyped.indented ∧
      childlessTree.bracketed ≠ (node (.nonterminal "E") [leaf "+", leaf "a"]).bracketed ∧
      childlessTree.indented ≠ (node (.nonterminal "E") [leaf "+", leaf "a"]).indented := by
  have hplain : childlessTree.Plain := by decide
  have huntyped : childlessTree.untyped.Plain := by decide
  have hflat : (node (.nonterminal "E") [leaf "+", leaf "a"]).Plain := by decide
  obtain ⟨hsame, hsame'⟩ := renderings_read_back hplain huntyped
  obtain ⟨hdiffer, hdiffer'⟩ := renderings_read_back hplain hflat
  refine ⟨hplain, huntyped, hflat, hsame.mpr rfl, hsame'.mpr rfl, fun h => ?_, fun h => ?_⟩
  · exact absurd (hdiffer.mp h) (by decide)
  · exact absurd (hdiffer'.mp h) (by decide)

end Tree

end ParseForest
