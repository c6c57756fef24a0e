import Mathlib.Data.List.Basic
import ParseForest.GrammarText.Clause
import ParseForest.GrammarText.Reader
import ParseForest.Proofs.Text.Words

/-! # A line states a clause, or is faulty

The rule read from a line is the clause that it states (`ofLine_of_clause`), and what is wrong with a
line is what the reader reports (`ofLine_of_fault`); a line that should hold a rule is in one of
these cases (`exists_clause_or_fault`).  Such a line has a character that is no white space, hence a
token, so it is not taken for a blank line.  The parts between the bars of a right-hand side are its
tokens without the bars (`flatten_splitOn`), so nothing but an equals sign is out of place in them. -/

namespace ParseForest

/-! ### Tokens of a line that is not blank -/

theorem Token.ofChars?_ne_nil {cs : List Char} (h : ∃ c ∈ cs, Text.isWhiteSpace c = false) :
    ofChars? cs ≠ some [] := by
  fun_induction ofChars? cs with
  | case1 =>
      obtain ⟨c, hc, -⟩ := h
      exact absurd hc List.not_mem_nil
  | case2 c cs hspace ih =>
      obtain ⟨d, hd, hother⟩ := h
      rcases List.mem_cons.mp hd with rfl | hd
      · rw [hspace] at hother
        exact absurd hother Bool.noConfusion
      · exact ih ⟨d, hd, hother⟩
  | case6 => exact nofun
  | _ => simp

theorem Token.ofLine_eq_ok_iff {line : String} {tokens : List Token} :
    Token.ofLine line = .ok tokens ↔ Token.ofChars? line.toList = some tokens := by
  unfold Token.ofLine
  split
  · rename_i hnone
    rw [hnone]
    exact ⟨nofun, nofun⟩
  · rename_i hsome
    rw [hsome, Except.ok.injEq, Option.some.injEq]

theorem Token.ofLine_eq_error {line : String} (h : ∀ tokens, Token.ofLine line ≠ .ok tokens) :
    Token.ofLine line = .error .unmatchedQuote := by
  unfold Token.ofLine at h ⊢
  split
  · rfl
  · rename_i tokens hsome
    rw [hsome] at h
    exact absurd rfl (h tokens)

namespace GrammarText

variable {line : String} {number : Nat} {clause : Clause} {fault : Fault}

theorem HoldsRule.ofLine_ne_nil (h : HoldsRule line) : Token.ofLine line ≠ .ok [] := by
  obtain ⟨before, c, rest, hline, -, hc, -⟩ := h
  rw [ne_eq, Token.ofLine_eq_ok_iff, hline]
  exact Token.ofChars?_ne_nil ⟨c, List.mem_append_right before List.mem_cons_self, hc⟩

/-! ### Alternatives -/

theorem flatten_splitOn {α : Type} [BEq α] (sep : α) (items : List α) :
    (items.splitOn sep).flatten = items.filter fun item => !(item == sep) := by
  rw [List.splitOn_eq_splitOnP, Text.flatten_splitOnP]

theorem not_mem_of_mem_splitOn {α : Type} [BEq α] [LawfulBEq α] {sep : α} {items part : List α}
    (h : part ∈ items.splitOn sep) : sep ∉ part := by
  rw [List.splitOn_eq_splitOnP] at h
  intro hsep
  have hother := Text.not_of_mem_splitOnP h hsep
  rw [beq_self_eq_true] at hother
  exact absurd hother Bool.noConfusion

theorem equals_mem_flatten_splitOn {tokens : List Token} :
    .equals ∈ (tokens.splitOn .bar).flatten ↔ .equals ∈ tokens := by
  rw [flatten_splitOn, List.mem_filter]
  exact and_iff_left (by decide)

theorem alternativeOfTokens_eq {tokens : List Token} (hbar : .bar ∉ tokens) :
    RuleLine.alternativeOfTokens tokens =
      if .equals ∈ tokens then .error .unexpectedEquals
      else .ok (tokens.filterMap Token.symbol?) := by
  induction tokens with
  | nil => rfl
  | cons token tokens ih =>
      rw [List.mem_cons, not_or] at hbar
      specialize ih hbar.2
      cases token with
      | equals => rw [if_pos List.mem_cons_self, RuleLine.alternativeOfTokens]
      | bar => exact absurd rfl hbar.1
      | nonterminal name =>
          rw [RuleLine.alternativeOfTokens, ih]
          by_cases hequals : .equals ∈ tokens <;> simp [hequals, Token.symbol?]
      | terminal text =>
          rw [RuleLine.alternativeOfTokens, ih]
          by_cases htext : text = "" <;> by_cases hequals : .equals ∈ tokens <;>
            simp [htext, hequals, Token.symbol?]

theorem mapM_alternativeOfTokens {parts : List (List Token)} (hbar : ∀ part ∈ parts, .bar ∉ part) :
    parts.mapM RuleLine.alternativeOfTokens =
      if .equals ∈ parts.flatten then .error .unexpectedEquals
      else .ok (parts.map fun part => part.filterMap Token.symbol?) := by
  induction parts with
  | nil => rfl
  | cons part parts ih =>
      obtain ⟨hpart, hparts⟩ := List.forall_mem_cons.mp hbar
      rw [List.mapM_cons, alternativeOfTokens_eq hpart, ih hparts]
      by_cases hequals : .equals ∈ part
      · simp only [List.flatten_cons, List.mem_append, hequals, true_or, if_true]
        rfl
      · by_cases hrest : .equals ∈ parts.flatten
        · simp only [List.flatten_cons, List.mem_append, hequals, hrest, or_true, if_true, if_false]
          rfl
        · simp only [List.flatten_cons, List.mem_append, hequals, hrest, or_self, if_false]
          rfl

theorem alternativesOfTokens_eq (clause : Clause) :
    RuleLine.alternativesOfTokens clause.right =
      if .equals ∈ clause.right then .error .unexpectedEquals else .ok clause.alternatives := by
  unfold RuleLine.alternativesOfTokens Clause.alternatives
  rw [mapM_alternativeOfTokens fun _ => not_mem_of_mem_splitOn]
  simp only [equals_mem_flatten_splitOn]

/-! ### Lines -/

theorem ofLine?_eq_some_iff {line : String × Nat} :
    Clause.ofLine? line = some clause ↔
      Token.ofLine line.1 = .ok (.nonterminal clause.name :: .equals :: clause.right) ∧
        .equals ∉ clause.right ∧ clause.number = line.2 := by
  obtain ⟨name, right, number⟩ := clause
  unfold Clause.ofLine?
  split
  · rename_i name' right' htokens
    rw [htokens]
    by_cases hequals : .equals ∈ right'
    · simp only [hequals, if_true, reduceCtorEq, false_iff, not_and]
      intro heq hright
      cases heq
      exact absurd hequals hright
    · simp only [hequals, if_false, Option.some.injEq, Clause.mk.injEq]
      constructor
      · rintro ⟨rfl, rfl, rfl⟩
        exact ⟨rfl, hequals, rfl⟩
      · rintro ⟨heq, -, rfl⟩
        cases heq
        exact ⟨rfl, rfl, rfl⟩
  · rename_i hother
    refine ⟨nofun, fun h => ?_⟩
    exact absurd h.1 (hother name right)

/-- **The rule on a line is the clause that the line states.** -/
theorem ofLine_of_clause (h : Clause.ofLine? (line, number) = some clause) (location : Location) :
    RuleLine.ofLine location line = .ok ⟨clause.name, clause.alternatives, location⟩ := by
  obtain ⟨htokens, hequals, -⟩ := ofLine?_eq_some_iff.mp h
  have hrule : RuleLine.ofTokens location (.nonterminal clause.name :: .equals :: clause.right) =
      .ok ⟨clause.name, clause.alternatives, location⟩ := by
    rw [RuleLine.ofTokens, alternativesOfTokens_eq, if_neg hequals]
    rfl
  unfold RuleLine.ofLine
  rw [htokens]
  exact hrule

/-- **What is wrong with a line is what is reported of it.** -/
theorem ofLine_of_fault (h : LineFault line fault) (location : Location) :
    RuleLine.ofLine location line = .error fault := by
  unfold RuleLine.ofLine
  cases h with
  | unmatchedQuote htokens =>
      rw [Token.ofLine_eq_error htokens]
      rfl
  | @missingNonterminal first rest htokens hfirst =>
      rw [htokens]
      cases first with
      | nonterminal name => exact absurd rfl (hfirst name)
      | equals | bar | terminal => rfl
  | @missingEquals name rest htokens hrest =>
      rw [htokens]
      cases rest with
      | nil => rfl
      | cons second rest =>
          cases second with
          | equals => exact absurd rfl hrest
          | nonterminal | bar | terminal => rfl
  | @unexpectedEquals name right htokens hequals =>
      have hrule : RuleLine.ofTokens location (.nonterminal name :: .equals :: right) =
          .error .unexpectedEquals := by
        have hright := alternativesOfTokens_eq ⟨name, right, 0⟩
        rw [if_pos hequals] at hright
        rw [RuleLine.ofTokens, hright]
        rfl
      rw [htokens]
      exact hrule

theorem exists_clause_or_fault (h : HoldsRule line) (number : Nat) :
    (∃ clause, Clause.ofLine? (line, number) = some clause) ∨ ∃ fault, LineFault line fault := by
  by_cases hread : ∃ tokens, Token.ofLine line = .ok tokens
  · obtain ⟨tokens, htokens⟩ := hread
    cases tokens with
    | nil => exact absurd htokens h.ofLine_ne_nil
    | cons first rest =>
        cases first with
        | nonterminal name =>
            by_cases hrest : rest.head? = some .equals
            · obtain ⟨right, rfl⟩ := List.head?_eq_some_iff.mp hrest
              by_cases hequals : .equals ∈ right
              · exact Or.inr ⟨_, .unexpectedEquals htokens hequals⟩
              · exact Or.inl ⟨⟨name, right, number⟩,
                  ofLine?_eq_some_iff.mpr ⟨htokens, hequals, rfl⟩⟩
            · exact Or.inr ⟨_, .missingEquals htokens hrest⟩
        | equals | bar | terminal => exact Or.inr ⟨_, .missingNonterminal htokens nofun⟩
  · exact Or.inr ⟨_, .unmatchedQuote fun tokens htokens => hread ⟨tokens, htokens⟩⟩

theorem not_lineFault_of_clause (h : Clause.ofLine? (line, number) = some clause) :
    ¬LineFault line fault := by
  intro hfault
  have hrule := ofLine_of_clause h ⟨"", number⟩
  rw [ofLine_of_fault hfault] at hrule
  exact absurd hrule nofun

theorem ofLine_eq_error_iff (h : HoldsRule line) (location : Location) :
    RuleLine.ofLine location line = .error fault ↔ LineFault line fault := by
  refine ⟨fun herror => ?_, fun hfault => ofLine_of_fault hfault location⟩
  rcases exists_clause_or_fault h 0 with ⟨clause, hclause⟩ | ⟨other, hother⟩
  · rw [ofLine_of_clause hclause] at herror
    exact absurd herror nofun
  · rw [ofLine_of_fault hother] at herror
    exact Except.error.inj herror ▸ hother

end GrammarText

end ParseForest
