import ParseForest.Proofs.Derivation.Cycle

/-! # The size of a derivation without cycles

Going down a derivation without cycles, a node with a single child leaves the span as it is and uses one
of the names that were still free over it (`Tree.length_freeNames_lt`); a node with more children divides
the span.  So there are at most as many nodes over one span as there are nonterminals, and at most as many
divisions as there are leaves less one (`Tree.internalNodes_le_of_avoids`). -/

namespace ParseForest.Tree

variable {g : Grammar} {above : List (Symbol × Span)} {span : Span}

/-! ### Free names -/

/-- The nonterminals that do not stand above over the span. -/
def freeNames (g : Grammar) (above : List (Symbol × Span)) (span : Span) : List String :=
  g.names.filter fun name => (.nonterminal name, span) ∉ above

theorem length_freeNames_le (g : Grammar) (above : List (Symbol × Span)) (span : Span) :
    (freeNames g above span).length ≤ g.rules.length := by
  have hnames : g.names.length = g.rules.length := List.length_map _
  exact hnames ▸ List.length_filter_le _ _

theorem length_freeNames_lt {name : String} (hname : name ∈ g.names)
    (hnot : (.nonterminal name, span) ∉ above) :
    (freeNames g ((.nonterminal name, span) :: above) span).length <
      (freeNames g above span).length := by
  have hfree : name ∈ freeNames g above span :=
    List.mem_filter.mpr ⟨hname, decide_eq_true hnot⟩
  have hbelow : freeNames g ((.nonterminal name, span) :: above) span =
      (freeNames g above span).filter fun other => other ≠ name := by
    unfold freeNames
    rw [List.filter_filter]
    refine List.filter_congr fun other _ => ?_
    simp
  rw [hbelow, List.length_filter_lt_length_iff_exists]
  exact ⟨name, hfree, by simp⟩

/-! ### Counting nodes -/

mutual

/-- A tree has at most as many nodes over its own span as names are free there, and each leaf but the
first adds at most two nodes for each nonterminal. -/
theorem internalNodes_add_le : (t : Tree) → (start : Nat) → (above : List (Symbol × Span)) →
    t.Derives g.ExpandsProperly → t.Avoids above start →
    t.internalNodes + 2 * g.rules.length ≤
      2 * (g.rules.length * t.leaves.length) + (freeNames g above (spanAt start t)).length
  | leaf text, _, _, _, _ => by
      rw [internalNodes, leaves, List.length_singleton]
      omega
  | node label children, start, above, hd, ha => by
      cases hd with
      | node name children hexpands hchildren =>
          obtain ⟨hnot, hbelow⟩ := avoids_node.mp ha
          have hfree := length_freeNames_lt (Grammar.mem_names_of_expands hexpands.2) hnot
          match children with
          | [] => exact absurd rfl hexpands.1
          | [only] =>
              -- the child covers the same span, over which one name less is free
              have hsame : spanAt start (node (.nonterminal name) [only]) = spanAt start only := by
                simp [spanAt, leaves, leavesAll]
              have honly := internalNodes_add_le only start _ (hchildren only List.mem_cons_self)
                (avoidsAll_cons.mp hbelow).1
              rw [hsame] at hfree honly ⊢
              rw [internalNodes, internalNodesAll, internalNodesAll, leaves, leavesAll, leavesAll,
                List.append_nil]
              omega
          | first :: second :: rest =>
              have hall := internalNodesAll_add_le (first :: second :: rest) start _ hchildren hbelow
              have htwo : g.rules.length * 2 ≤ g.rules.length * (first :: second :: rest).length :=
                Nat.mul_le_mul_left _ (by simp)
              rw [internalNodes, leaves]
              omega

theorem internalNodesAll_add_le : (ts : List Tree) → (start : Nat) → (above : List (Symbol × Span)) →
    (∀ t ∈ ts, t.Derives g.ExpandsProperly) → AvoidsAll above start ts →
    internalNodesAll ts + g.rules.length * ts.length ≤ 2 * (g.rules.length * (leavesAll ts).length)
  | [], _, _, _, _ => by simp [internalNodesAll]
  | t :: ts, start, above, hd, ha => by
      obtain ⟨ht, hts⟩ := List.forall_mem_cons.mp hd
      obtain ⟨hat, hats⟩ := avoidsAll_cons.mp ha
      have hfirst := internalNodes_add_le t start above ht hat
      have hrest := internalNodesAll_add_le ts _ above hts hats
      have hfree := length_freeNames_le g above (spanAt start t)
      rw [internalNodesAll, leavesAll, List.length_append, List.length_cons, Nat.mul_add, Nat.mul_add]
      omega

end

/-- **A derivation without cycles is small**: for each nonterminal, it has at most one node over each of
the spans that it takes to divide its leaves into single ones. -/
theorem internalNodes_le_of_avoids {t : Tree} {start : Nat} (hd : t.Derives g.ExpandsProperly)
    (ha : t.Avoids above start) :
    t.internalNodes ≤ g.rules.length * (2 * t.leaves.length - 1) := by
  have hnodes := internalNodes_add_le t start above hd ha
  have hfree := length_freeNames_le g above (spanAt start t)
  have hbound : g.rules.length * (2 * t.leaves.length - 1) =
      2 * (g.rules.length * t.leaves.length) - g.rules.length := by
    rw [Nat.mul_sub, Nat.mul_left_comm, Nat.mul_one]
  omega

end ParseForest.Tree
