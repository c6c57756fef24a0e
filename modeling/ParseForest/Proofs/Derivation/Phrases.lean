import ParseForest.Proofs.Derivation.Expansion
import ParseForest.Proofs.Text.Words
import ParseForest.Tree.Position

/-! # Phrases nest

The phrases of a tree are those of its nodes in pre-order, each at a position of its own
(`phrases_eq_map`).  The leaves under a node are those under its children, one child after the other
(`leavesAll_eq_append`), and the words of a phrase are the words of its leaves.  So read word by word the
phrase of a child is a block in the phrase of its parent, right behind the words under the children before it
(`wordsBefore_append_prefix`, `phrases_nest`). -/

namespace ParseForest.Tree

/-! ### Positions of nodes -/

theorem mem_nodePositionsFrom {i : Nat} {ts : List Tree} {position : List Nat} :
    position ∈ nodePositionsFrom i ts ↔
      ∃ j child rest, ts[j]? = some child ∧ position = (i + j) :: rest ∧
        rest ∈ child.nodePositions := by
  induction ts generalizing i with
  | nil => simp [nodePositionsFrom]
  | cons t ts ih =>
      rw [nodePositionsFrom, List.mem_append, List.mem_map, ih]
      constructor
      · rintro (⟨rest, hrest, rfl⟩ | ⟨j, child, rest, hchild, rfl, hrest⟩)
        · exact ⟨0, t, rest, rfl, rfl, hrest⟩
        · exact ⟨j + 1, child, rest, hchild, by congr 1; omega, hrest⟩
      · rintro ⟨j, child, rest, hchild, rfl, hrest⟩
        cases j with
        | zero =>
            obtain rfl := Option.some.inj hchild
            exact .inl ⟨rest, hrest, rfl⟩
        | succ j => exact .inr ⟨j, child, rest, hchild, by congr 1; omega, hrest⟩

theorem mem_nodePositions {t : Tree} {position : List Nat} :
    position ∈ t.nodePositions ↔
      ∃ label children, t.subtreeAt? position = some (node label children) := by
  induction position generalizing t with
  | nil => cases t <;> simp [nodePositions, subtreeAt?]
  | cons i position ih =>
      cases t with
      | leaf text => simp [nodePositions, subtreeAt?, children]
      | node label children =>
          simp only [nodePositions, mem_nodePositionsFrom, subtreeAt?, Tree.children,
            Option.bind_eq_some_iff, List.mem_cons, reduceCtorEq, false_or, Nat.zero_add, List.cons.injEq]
          constructor
          · rintro ⟨_, child, _, hchild, ⟨rfl, rfl⟩, hposition⟩
            obtain ⟨label', children', hnode⟩ := ih.mp hposition
            exact ⟨label', children', child, hchild, hnode⟩
          · rintro ⟨label', children', child, hchild, hnode⟩
            exact ⟨i, child, position, hchild, ⟨rfl, rfl⟩, ih.mpr ⟨label', children', hnode⟩⟩

mutual

theorem nodePositions_pairwise : (t : Tree) → t.nodePositions.Pairwise (· < ·)
  | leaf _ => List.Pairwise.nil
  | node label children => by
      rw [nodePositions, List.pairwise_cons]
      refine ⟨fun position hposition => ?_, nodePositionsFrom_pairwise 0 children⟩
      obtain ⟨j, -, rest, -, rfl, -⟩ := mem_nodePositionsFrom.mp hposition
      exact List.nil_lt_cons _ _

theorem nodePositionsFrom_pairwise (i : Nat) : (ts : List Tree) →
    (nodePositionsFrom i ts).Pairwise (· < ·)
  | [] => List.Pairwise.nil
  | t :: ts => by
      rw [nodePositionsFrom, List.pairwise_append]
      refine ⟨?_, nodePositionsFrom_pairwise (i + 1) ts, ?_⟩
      · rw [List.pairwise_map]
        exact (nodePositions_pairwise t).imp fun h => List.cons_lt_cons_self.mpr h
      · intro first hfirst second hsecond
        obtain ⟨rest, -, rfl⟩ := List.mem_map.mp hfirst
        obtain ⟨j, -, rest', -, rfl, -⟩ := mem_nodePositionsFrom.mp hsecond
        exact List.cons_lt_cons_iff.mpr (.inl (by omega))

end

mutual

/-- **The phrases are those of the nodes at their positions.** -/
theorem phrases_eq_map : (t : Tree) →
    t.phrases.map some = t.nodePositions.map fun position => (t.subtreeAt? position).map phrase
  | leaf _ => rfl
  | node label children => by
      rw [phrases, nodePositions, List.map_cons, List.map_cons]
      exact congrArg _ (phrasesAll_eq_map label [] children)

theorem phrasesAll_eq_map (label : Symbol) (before : List Tree) : (ts : List Tree) →
    (phrasesAll ts).map some = (nodePositionsFrom before.length ts).map fun position =>
      ((node label (before ++ ts)).subtreeAt? position).map phrase
  | [] => rfl
  | t :: ts => by
      have hrest := phrasesAll_eq_map label (before ++ [t]) ts
      rw [List.length_append, List.length_singleton, List.append_assoc, List.singleton_append] at hrest
      rw [phrasesAll, nodePositionsFrom, List.map_append, List.map_append, hrest, phrases_eq_map t,
        List.map_map]
      congr 1
      simp [subtreeAt?, Tree.children]

end

theorem getElem?_phrases {t u : Tree} {k : Nat} {position : List Nat}
    (hposition : t.nodePositions[k]? = some position) (hu : t.subtreeAt? position = some u) :
    t.phrases[k]? = some u.phrase := by
  have hmap := congrArg (·[k]?) (phrases_eq_map t)
  simp only [List.getElem?_map, hposition, Option.map_some, hu] at hmap
  simpa using hmap

/-! ### Words under children -/

theorem leavesAll_eq_append {ts : List Tree} {i : Nat} {child : Tree} (h : ts[i]? = some child) :
    leavesAll ts = leavesAll (ts.take i) ++ child.leaves ++ leavesAll (ts.drop (i + 1)) := by
  obtain ⟨hlt, rfl⟩ := List.getElem?_eq_some_iff.mp h
  conv_lhs => rw [← List.take_append_drop i ts, List.drop_eq_getElem_cons hlt]
  rw [leavesAll_append, leavesAll, List.append_assoc]

/-- The words of the leaves under the children that stand before the given number. -/
def wordsBefore (children : List Tree) (i : Nat) : List String :=
  (leavesAll (children.take i)).flatMap Text.words

theorem words_phrase (t : Tree) : Text.words t.phrase = t.leaves.flatMap Text.words :=
  Text.words_spaced t.leaves

theorem words_phrase_node (label : Symbol) (children : List Tree) :
    Text.words (node label children).phrase = wordsBefore children children.length := by
  rw [words_phrase, leaves, wordsBefore, List.take_length]

/-- The words of a child come right behind those under the children before it, and end before those under a
later child begin. -/
theorem wordsBefore_append_prefix {children : List Tree} {i j : Nat} {child : Tree}
    (h : children[i]? = some child) (hlt : i < j) :
    wordsBefore children i ++ Text.words child.phrase <+: wordsBefore children j := by
  have hchild : (children.take j)[i]? = some child := by rw [List.getElem?_take_of_lt hlt, h]
  have htake : (children.take j).take i = children.take i := by
    rw [List.take_take, Nat.min_eq_left (Nat.le_of_lt hlt)]
  unfold wordsBefore
  rw [words_phrase, leavesAll_eq_append hchild, htake, List.flatMap_append, List.flatMap_append]
  exact List.prefix_append _ _

theorem subtreeAt?_concat {t : Tree} {position : List Nat} {label : Symbol} {children : List Tree}
    (h : t.subtreeAt? position = some (node label children)) (i : Nat) :
    t.subtreeAt? (position ++ [i]) = children[i]? := by
  induction position generalizing t with
  | nil =>
      obtain rfl := Option.some.inj h
      simp [subtreeAt?, Tree.children]
  | cons j position ih =>
      obtain ⟨child, hchild, hnode⟩ := Option.bind_eq_some_iff.mp h
      rw [List.cons_append, subtreeAt?, hchild]
      exact ih hnode

/-- **The phrases of a tree are those of its nodes in pre-order, and they nest.**  There is one for each node,
and the one at place `k` is the leaves of the node whose position is at place `k`, with spaces between them.
Read word by word, the phrases of the children of a node that are nodes are blocks in its own phrase: each
begins right behind the words of the leaves under the children before it, and ends where or before the words
under any later child begin. -/
theorem phrases_nest (t : Tree) :
    (t.nodePositions.Pairwise (· < ·) ∧
      ∀ position, position ∈ t.nodePositions ↔
        ∃ label children, t.subtreeAt? position = some (node label children)) ∧
    (t.phrases.length = t.internalNodes ∧ t.nodePositions.length = t.internalNodes ∧
      ∀ (k : Nat) position u, t.nodePositions[k]? = some position → t.subtreeAt? position = some u →
        t.phrases[k]? = some (Text.spaced u.leaves)) ∧
    ∀ (p : Nat) position label children, t.nodePositions[p]? = some position →
      t.subtreeAt? position = some (node label children) →
      ∃ whole, t.phrases[p]? = some whole ∧
        ∀ (i : Nat) child, children[i]? = some child → child.isLeaf = false →
          ∃ (q : Nat) (entry : String), t.nodePositions[q]? = some (position ++ [i]) ∧
            t.phrases[q]? = some entry ∧
            (wordsBefore children i ++ Text.words entry <+: Text.words whole) ∧
            ∀ j, i < j → wordsBefore children i ++ Text.words entry <+: wordsBefore children j := by
  have hlength : t.nodePositions.length = t.internalNodes := by
    have hmap := congrArg List.length (phrases_eq_map t)
    rw [List.length_map, List.length_map, length_phrases] at hmap
    exact hmap.symm
  refine ⟨⟨nodePositions_pairwise t, fun position => mem_nodePositions⟩,
    ⟨length_phrases t, hlength, fun k position u hk hu => getElem?_phrases hk hu⟩, ?_⟩
  intro p position label children hp hnode
  refine ⟨_, getElem?_phrases hp hnode, fun i child hchild hinner => ?_⟩
  -- a child that is a node has a place of its own in pre-order
  have hposition : t.subtreeAt? (position ++ [i]) = some child := by
    rw [subtreeAt?_concat hnode, hchild]
  have hmem : position ++ [i] ∈ t.nodePositions := by
    cases child with
    | leaf text => exact absurd hinner (by simp [isLeaf])
    | node label' children' => exact mem_nodePositions.mpr ⟨label', children', hposition⟩
  obtain ⟨q, hq⟩ := List.getElem?_of_mem hmem
  obtain ⟨hlt, -⟩ := List.getElem?_eq_some_iff.mp hchild
  refine ⟨q, _, hq, getElem?_phrases hq hposition, ?_, fun j hj => wordsBefore_append_prefix hchild hj⟩
  rw [words_phrase_node]
  exact wordsBefore_append_prefix hchild hlt

/-- A tree with leaves of two words, of none and of white space alone, and a node without children. -/
def spacedTree : Tree :=
  node (.nonterminal "S") [leaf "a b", node (.nonterminal "T") [leaf "", leaf "c\td"], leaf " ",
    node (.terminal "U") []]

/-- The words of the first child that is a node stand behind the two of the leaf before it, and end before
those of the other one, which has none. -/
theorem phrases_nest_spacedTree :
    spacedTree.nodePositions[0]? = some [] ∧ spacedTree.subtreeAt? [] = some spacedTree ∧
    spacedTree.phrases[2]? = some "" ∧
    ∃ (whole : String) (q : Nat) (entry : String), spacedTree.phrases[0]? = some whole ∧
      spacedTree.nodePositions[q]? = some [1] ∧ spacedTree.phrases[q]? = some entry ∧
      (["a", "b"] ++ Text.words entry <+: Text.words whole) ∧
      (["a", "b"] ++ Text.words entry <+: ["a", "b", "c", "d"]) := by
  obtain ⟨-, ⟨-, -, hphrase⟩, hnest⟩ := phrases_nest spacedTree
  obtain ⟨whole, hwhole, hblocks⟩ := hnest 0 [] _ _ rfl rfl
  obtain ⟨q, entry, hq, hentry, hblock, hlater⟩ := hblocks 1 _ rfl rfl
  have hbefore : wordsBefore spacedTree.children 1 = ["a", "b"] := by decide
  have hend : wordsBefore spacedTree.children 3 = ["a", "b", "c", "d"] := by decide
  have hempty := hlater 3 (by decide)
  rw [← hbefore, ← hend]
  exact ⟨rfl, rfl, hphrase 2 [3] _ rfl rfl, whole, q, entry, hwhole, hq, hentry, hblock, hempty⟩

end ParseForest.Tree
