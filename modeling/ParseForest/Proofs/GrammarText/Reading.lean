import Mathlib.Data.List.Forall2
import ParseForest.Proofs.GrammarText.Clause
import ParseForest.Proofs.GrammarText.RoundTrip

/-! # From lines to rules, or to faults

The lines that hold a rule are numbered in increasing order (`ruleLines_pairwise`).  When each of
them states a clause, the text is read as the rules of its clauses (`ofText_of_clauses`).  When some
are faulty, the faults of all faulty lines are what is reported, each at its line
(`ofText_of_fault`). -/

namespace ParseForest.GrammarText

/-! ### Items that failed -/

section

variable {ε α : Type} {items : List (Except ε α)}

theorem mem_partition_fst {e : ε} : e ∈ (partition items).1 ↔ .error e ∈ items := by
  induction items with
  | nil => simp [partition]
  | cons item items ih => cases item <;> simp [partition, ih]

theorem partition_fst_pairwise {R : ε → ε → Prop}
    (h : items.Pairwise fun a b => ∀ e e', a = .error e → b = .error e' → R e e') :
    (partition items).1.Pairwise R := by
  induction h with
  | nil => exact List.Pairwise.nil
  | @cons item items hitem _ ih =>
      cases item with
      | ok a => exact ih
      | error e =>
          refine List.Pairwise.cons (fun e' he' => ?_) ih
          exact hitem _ (mem_partition_fst.mp he') e e' rfl rfl

theorem forall₂_partition_fst {β : Type} {read : β → Except ε α} {items : List β} :
    List.Forall₂ (fun item e => read item = .error e) (items.filter fun item => !(read item).isOk)
      (partition (items.map read)).1 := by
  induction items with
  | nil => exact .nil
  | cons item items ih =>
      cases hitem : read item with
      | ok b => simpa [partition, hitem, Except.isOk, Except.toBool] using ih
      | error e => simpa [partition, hitem, Except.isOk, Except.toBool] using ih

theorem not_isOk_iff {item : Except ε α} :
    (!item.isOk) = true ↔ ∃ e, item = .error e := by
  cases item <;> simp [Except.isOk, Except.toBool]

end

variable {file text : String} {line : String × Nat} {clause : Clause} {error : Located Fault}

/-! ### Lines with their numbers -/

theorem ruleLines_pairwise (text : String) : (ruleLines text).Pairwise fun a b => a.2 < b.2 := by
  refine List.Pairwise.filter _ ?_
  rw [← List.pairwise_map (f := Prod.snd), List.zipIdx_map_snd]
  exact List.pairwise_lt_range'

theorem number_pos (h : line ∈ ruleLines text) : 0 < line.2 :=
  List.le_snd_of_mem_zipIdx (List.mem_filter.mp h).1

theorem holdsRule_of_mem (h : line ∈ ruleLines text) : HoldsRule line.1 :=
  of_decide_eq_true (List.mem_filter.mp h).2

theorem numbered_lines (text : String) :
    numbered ((Text.lines text).map .ok) = (ruleLines text).map (Prod.map .ok id) := by
  unfold numbered ruleLines
  rw [List.zipIdx_map, List.filter_map]
  congr 1
  refine List.filter_congr fun line _ => ?_
  rw [Bool.eq_iff_iff, decide_eq_true_eq, holdsRule_iff]
  rfl

/-! ### Reading one line -/

/-- The rule that a clause is read as. -/
def Clause.rule (file : String) (clause : Clause) : RuleLine :=
  ⟨clause.name, clause.alternatives, ⟨file, clause.number⟩⟩

theorem readLine_of_clause (h : Clause.ofLine? line = some clause) :
    readLine file (Prod.map .ok id line) = .ok (clause.rule file) := by
  have hnumber := (ofLine?_eq_some_iff.mp h).2.2
  unfold readLine Clause.rule
  rw [hnumber]
  simp only [Prod.map_fst, Prod.map_snd, id, ofLine_of_clause h]

theorem readLine_eq_error_iff (h : HoldsRule line.1) :
    readLine file (Prod.map .ok id line) = .error error ↔
      LineFault line.1 error.fault ∧ error.location = ⟨file, line.2⟩ := by
  obtain ⟨location, fault⟩ := error
  rw [← ofLine_eq_error_iff h ⟨file, line.2⟩]
  unfold readLine
  simp only [Prod.map_fst, Prod.map_snd, id]
  cases RuleLine.ofLine ⟨file, line.2⟩ line.1 with
  | ok rule => simp
  | error other =>
      simp only [Except.error.injEq, Located.mk.injEq]
      exact ⟨fun heq => ⟨heq.2, heq.1.symm⟩, fun heq => ⟨heq.2.symm, heq.1⟩⟩

/-! ### Reading a text -/

theorem ofLines_eq_error {lines : List LineRead}
    (h : (partition ((numbered lines).map (readLine file))).1 ≠ []) :
    ofLines file lines = .error (partition ((numbered lines).map (readLine file))).1 := by
  unfold ofLines
  split
  · rename_i hnone
    rw [hnone] at h
    exact absurd rfl h
  · rename_i hsome
    rw [hsome]

theorem map_readLine_of_clauses {lines : List (String × Nat)}
    (h : ∀ line ∈ lines, ∃ clause, Clause.ofLine? line = some clause) :
    (lines.map (Prod.map .ok id)).map (readLine file) =
      ((lines.filterMap Clause.ofLine?).map (Clause.rule file)).map .ok := by
  induction lines with
  | nil => rfl
  | cons line lines ih =>
      obtain ⟨⟨clause, hclause⟩, hlines⟩ := List.forall_mem_cons.mp h
      rw [List.map_cons, List.map_cons, readLine_of_clause hclause, ih hlines,
        List.filterMap_cons_some hclause, List.map_cons, List.map_cons]

/-- **A text of clauses is read as their rules.** -/
theorem ofText_of_clauses (h : ∀ line ∈ ruleLines text, ∃ clause, Clause.ofLine? line = some clause)
    (file : String) : ofText file text = ofRuleLines file ((clauses text).map (Clause.rule file)) := by
  unfold ofText ofLines
  rw [numbered_lines, map_readLine_of_clauses h, partition_map_ok]
  rfl

/-- **The faults of a text are those of its lines.** -/
theorem ofText_of_fault (h : ∃ line ∈ ruleLines text, ∃ fault, LineFault line.1 fault)
    (file : String) :
    ∃ errors, ofText file text = .error errors ∧
      errors.Pairwise (fun a b => a.location.line < b.location.line) ∧
      ∀ error, error ∈ errors ↔
        ∃ line ∈ ruleLines text, LineFault line.1 error.fault ∧ error.location = ⟨file, line.2⟩ := by
  have hmem : ∀ error, error ∈
      (partition (((ruleLines text).map (Prod.map .ok id)).map (readLine file))).1 ↔
        ∃ line ∈ ruleLines text, LineFault line.1 error.fault ∧ error.location = ⟨file, line.2⟩ := by
    intro error
    rw [mem_partition_fst, List.map_map, List.mem_map]
    refine exists_congr fun line => and_congr_right fun hline => ?_
    exact readLine_eq_error_iff (holdsRule_of_mem hline)
  have hsorted :
      (partition (((ruleLines text).map (Prod.map .ok id)).map (readLine file))).1.Pairwise
        fun a b => a.location.line < b.location.line := by
    apply partition_fst_pairwise
    rw [List.map_map, List.pairwise_map]
    refine (List.Pairwise.and_mem.mp (ruleLines_pairwise text)).imp ?_
    rintro a b ⟨ha, hb, hlt⟩ e e' he he'
    rw [((readLine_eq_error_iff (holdsRule_of_mem ha)).mp he).2,
      ((readLine_eq_error_iff (holdsRule_of_mem hb)).mp he').2]
    exact hlt
  obtain ⟨line, hline, fault, hfault⟩ := h
  refine ⟨_, ?_, hsorted, hmem⟩
  unfold ofText
  rw [← numbered_lines] at hmem ⊢
  refine ofLines_eq_error fun hnone => ?_
  have herror := (hmem ⟨⟨file, line.2⟩, fault⟩).mpr ⟨line, hline, hfault, rfl⟩
  rw [hnone] at herror
  exact absurd herror List.not_mem_nil

end ParseForest.GrammarText
