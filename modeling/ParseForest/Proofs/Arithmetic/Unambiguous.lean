import ParseForest.Proofs.Arithmetic.Derivation

/-! # The grammar of arithmetic expressions is unambiguous

In the leaves of a derivation the parentheses are balanced, and an operator of the layers above stands
only inside of them (`IsDerivation.isSealed`).  So the operator at the root of a sum is the last additive
operator outside parentheses: behind it as many parentheses are opened as closed, and behind any other
in the last summand more are closed (`IsSealed.split_unique`).  The same goes for products.  Hence a
derivation is determined by its level and its leaves (`IsDerivation.unique`), and a parse from any level
has at most one tree (`length_parse_le_one`). -/

namespace ParseForest.Arithmetic

/-! ### Parentheses -/

/-- The number of opening parentheses less the number of closing ones. -/
def balance (tokens : List String) : Int :=
  tokens.count "(" - tokens.count ")"

@[simp] theorem balance_nil : balance [] = 0 := rfl

@[simp] theorem balance_append (xs ys : List String) :
    balance (xs ++ ys) = balance xs + balance ys := by
  simp only [balance, List.count_append]
  omega

theorem balance_cons (token : String) (tokens : List String) :
    balance (token :: tokens) = balance [token] + balance tokens :=
  balance_append [token] tokens

@[simp] theorem balance_opening : balance ["("] = 1 := by decide

@[simp] theorem balance_closing : balance [")"] = -1 := by decide

theorem balance_other {token : String} (hopening : token ≠ "(") (hclosing : token ≠ ")") :
    balance [token] = 0 := by
  simp [balance, hopening, hclosing]

/-- Parentheses are balanced, and the given tokens stand only inside of them.  Read from the right:
nowhere is more opened than closed, and behind such a token more is closed than opened. -/
structure IsSealed (among : List String) (tokens : List String) : Prop where
  balanced : balance tokens = 0
  suffix_le : ∀ rest, rest <:+ tokens → balance rest ≤ 0
  suffix_lt : ∀ token ∈ among, ∀ rest, token :: rest <:+ tokens → balance rest < 0

variable {among : List String} {xs ys rest : List String} {token middle : String}

theorem IsSealed.mono {fewer : List String} (h : IsSealed among xs) (hsub : fewer ⊆ among) :
    IsSealed fewer xs :=
  ⟨h.balanced, h.suffix_le, fun token hmem => h.suffix_lt token (hsub hmem)⟩

theorem suffix_cases (h : rest <:+ xs ++ middle :: ys) :
    rest <:+ ys ∨ ∃ before, before <:+ xs ∧ rest = before ++ middle :: ys := by
  obtain ⟨skipped, heq⟩ := h
  rcases List.append_eq_append_iff.mp heq with ⟨before, hxs, hrest⟩ | ⟨more, -, hys⟩
  · exact Or.inr ⟨before, ⟨skipped, hxs.symm⟩, hrest⟩
  · rcases List.suffix_cons_iff.mp ⟨more, hys.symm⟩ with rfl | hsuffix
    · exact Or.inr ⟨[], List.nil_suffix, rfl⟩
    · exact Or.inl hsuffix

theorem cons_suffix_cases (hne : token ≠ middle) (h : token :: rest <:+ xs ++ middle :: ys) :
    token :: rest <:+ ys ∨ ∃ before, token :: before <:+ xs ∧ rest = before ++ middle :: ys := by
  rcases suffix_cases h with hys | ⟨before, hbefore, heq⟩
  · exact Or.inl hys
  · cases before with
    | nil => exact absurd (List.cons.inj heq).1 hne
    | cons first before =>
        obtain ⟨rfl, rfl⟩ := List.cons.inj heq
        exact Or.inr ⟨before, hbefore, rfl⟩

theorem isSealed_singleton (hopening : token ≠ "(") (hclosing : token ≠ ")") (hnot : token ∉ among) :
    IsSealed among [token] := by
  have hbalance := balance_other hopening hclosing
  refine ⟨hbalance, fun rest hrest => ?_, fun other hmem rest hrest => ?_⟩
  · rcases List.suffix_cons_iff.mp hrest with rfl | hnil
    · omega
    · simp [List.suffix_nil.mp hnil]
  · rcases List.suffix_cons_iff.mp hrest with heq | hnil
    · exact absurd ((List.cons.inj heq).1 ▸ hmem) hnot
    · exact absurd (List.suffix_nil.mp hnil) (List.cons_ne_nil _ _)

theorem IsSealed.parenthesized (h : IsSealed [] xs) (hopening : "(" ∉ among) (hclosing : ")" ∉ among) :
    IsSealed among ("(" :: xs ++ [")"]) := by
  have hbalanced := h.balanced
  refine ⟨?_, fun rest hrest => ?_, fun token hmem rest hrest => ?_⟩
  · rw [List.cons_append, balance_cons, balance_append, balance_opening, balance_closing]
    omega
  · rcases suffix_cases hrest with hnil | ⟨before, hbefore, rfl⟩
    · simp [List.suffix_nil.mp hnil]
    · rw [balance_append, balance_closing]
      rcases List.suffix_cons_iff.mp hbefore with rfl | hbefore
      · rw [balance_cons, balance_opening]
        omega
      · have := h.suffix_le before hbefore
        omega
  · have hne : token ≠ ")" := fun heq => hclosing (heq ▸ hmem)
    rcases cons_suffix_cases hne hrest with hnil | ⟨before, hbefore, rfl⟩
    · exact absurd (List.suffix_nil.mp hnil) (List.cons_ne_nil _ _)
    · rcases List.suffix_cons_iff.mp hbefore with heq | hbefore
      · exact absurd ((List.cons.inj heq).1 ▸ hmem) hopening
      · have := h.suffix_le before ((List.suffix_cons token before).trans hbefore)
        rw [balance_append, balance_closing]
        omega

theorem IsSealed.join (hxs : IsSealed among xs) (hys : IsSealed among ys) (hopening : middle ≠ "(")
    (hclosing : middle ≠ ")") (hnot : middle ∉ among) : IsSealed among (xs ++ middle :: ys) := by
  have hxs0 := hxs.balanced
  have hright : balance (middle :: ys) = 0 := by
    have hys0 := hys.balanced
    have hmiddle := balance_other hopening hclosing
    rw [balance_cons]
    omega
  refine ⟨?_, fun rest hrest => ?_, fun token hmem rest hrest => ?_⟩
  · rw [balance_append]
    omega
  · rcases suffix_cases hrest with hrest | ⟨before, hbefore, rfl⟩
    · exact hys.suffix_le rest hrest
    · have := hxs.suffix_le before hbefore
      rw [balance_append]
      omega
  · have hne : token ≠ middle := fun heq => hnot (heq ▸ hmem)
    rcases cons_suffix_cases hne hrest with hrest | ⟨before, hbefore, rfl⟩
    · exact hys.suffix_lt token hmem rest hrest
    · have := hxs.suffix_lt token hmem before hbefore
      rw [balance_append]
      omega

/-- A sealed operator has no balanced tokens behind it. -/
theorem IsSealed.not_suffix (h : IsSealed among xs) (hmem : token ∈ among) (hys : balance ys = 0) :
    ¬token :: ys <:+ xs := fun hsuffix => by
  have := h.suffix_lt token hmem ys hsuffix
  omega

/-- **The last operator outside parentheses divides tokens in one way.** -/
theorem IsSealed.split_unique {xs' ys' : List String} {token' : String} (hys : IsSealed among ys)
    (hys' : IsSealed among ys') (hmem : token ∈ among) (hmem' : token' ∈ among)
    (heq : xs ++ token :: ys = xs' ++ token' :: ys') : xs = xs' ∧ token = token' ∧ ys = ys' := by
  have hsuffix : token :: ys <:+ xs ++ token :: ys := List.suffix_append _ _
  have hsuffix' : token' :: ys' <:+ xs ++ token :: ys := heq ▸ List.suffix_append _ _
  have hsame : token :: ys = token' :: ys' := by
    rcases List.suffix_or_suffix_of_suffix hsuffix hsuffix' with h | h
    · exact (List.suffix_cons_iff.mp h).resolve_right (hys'.not_suffix hmem hys.balanced)
    · exact ((List.suffix_cons_iff.mp h).resolve_right (hys.not_suffix hmem' hys'.balanced)).symm
  rw [hsame] at heq
  obtain ⟨htoken, hrest⟩ := List.cons.inj hsame
  exact ⟨List.append_cancel_right heq, htoken, hrest⟩

/-! ### Leaves of derivations -/

/-- The operators of the layers above a level. -/
def Level.above : Level → List String
  | expression => []
  | term => additive
  | factor => operators

variable {upper lower level : Level} {s t : Tree}

theorem Layer.above_lower (h : Layer upper among lower) : lower.above = upper.above ++ among := by
  cases h <;> rfl

theorem Layer.not_mem_above (h : Layer upper among lower) : ∀ operator ∈ among, operator ∉ upper.above := by
  cases h <;> decide

theorem Layer.mem_operators (h : Layer upper among lower) : ∀ operator ∈ among, operator ∈ operators := by
  cases h <;> decide

theorem ne_parenthesis_of_operator : ∀ operator ∈ operators, operator ≠ "(" ∧ operator ≠ ")" := by
  decide

theorem ne_parenthesis_of_operand : ∀ text ∈ operands, text ≠ "(" ∧ text ≠ ")" := by
  decide

theorem not_operator_of_operand : ∀ text ∈ operands, text ∉ operators := by
  decide

/-- In the leaves of a derivation the operators of the layers above are sealed. -/
theorem IsDerivation.isSealed (h : IsDerivation level t) : IsSealed level.above t.leaves := by
  induction h with
  | operation hlayer hop _ _ ihl ihr =>
      obtain ⟨hopening, hclosing⟩ := ne_parenthesis_of_operator _ (hlayer.mem_operators _ hop)
      rw [hlayer.above_lower] at ihr
      have hright := ihr.mono (List.subset_append_left _ _)
      rw [leaves_operation]
      exact ihl.join hright hopening hclosing (hlayer.not_mem_above _ hop)
  | single hlayer _ ih =>
      rw [hlayer.above_lower] at ih
      rw [leaves_single]
      exact ih.mono (List.subset_append_left _ _)
  | parenthesized _ ih =>
      rw [leaves_enclosed]
      exact ih.parenthesized (by decide) (by decide)
  | @operand text htext =>
      obtain ⟨hopening, hclosing⟩ := ne_parenthesis_of_operand text htext
      exact isSealed_singleton hopening hclosing (not_operator_of_operand text htext)

theorem Layer.mem_above_lower (hlayer : Layer upper among lower) :
    ∀ operator ∈ among, operator ∈ lower.above := by
  intro operator hop
  rw [hlayer.above_lower]
  exact List.mem_append_right _ hop

theorem Layer.leaves_ne (hlayer : Layer upper among lower) (hop : token ∈ among)
    (hs : IsDerivation lower s) (ht : IsDerivation lower t) : s.leaves ≠ xs ++ token :: t.leaves := by
  intro heq
  have hsuffix : token :: t.leaves <:+ s.leaves := heq ▸ List.suffix_append _ _
  exact hs.isSealed.not_suffix (hlayer.mem_above_lower _ hop) ht.isSealed.balanced hsuffix

/-- An operation of a layer is divided in one way. -/
theorem Layer.split_unique {ys : List String} {token' : String} (hlayer : Layer upper among lower)
    (hop : token ∈ among) (hop' : token' ∈ among) (hs : IsDerivation lower s)
    (ht : IsDerivation lower t) (heq : xs ++ token :: s.leaves = ys ++ token' :: t.leaves) :
    xs = ys ∧ token = token' ∧ s.leaves = t.leaves :=
  hs.isSealed.split_unique ht.isSealed (hlayer.mem_above_lower _ hop) (hlayer.mem_above_lower _ hop')
    heq

/-! ### Unambiguity -/

/-- **A derivation is determined by its level and its leaves.** -/
theorem IsDerivation.unique (hs : IsDerivation level s) :
    ∀ {t : Tree}, IsDerivation level t → s.leaves = t.leaves → s = t := by
  induction hs with
  | operation hlayer hop hl hr ihl ihr =>
      intro t ht heq
      cases ht with
      | operation hlayer' hop' hl' hr' =>
          obtain ⟨rfl, rfl⟩ := hlayer.unique hlayer'
          rw [leaves_operation, leaves_operation] at heq
          obtain ⟨hleft, rfl, hright⟩ := hlayer.split_unique hop hop' hr hr' heq
          rw [ihl hl' hleft, ihr hr' hright]
      | single hlayer' hinner =>
          obtain ⟨rfl, rfl⟩ := hlayer.unique hlayer'
          rw [leaves_operation, leaves_single] at heq
          exact absurd heq.symm (hlayer.leaves_ne hop hinner hr)
      | parenthesized => exact nomatch hlayer
      | operand => exact nomatch hlayer
  | single hlayer hinner ih =>
      intro t ht heq
      cases ht with
      | operation hlayer' hop' _ hr' =>
          obtain ⟨rfl, rfl⟩ := hlayer.unique hlayer'
          rw [leaves_operation, leaves_single] at heq
          exact absurd heq (hlayer.leaves_ne hop' hinner hr')
      | single hlayer' hinner' =>
          obtain ⟨rfl, rfl⟩ := hlayer.unique hlayer'
          rw [leaves_single, leaves_single] at heq
          rw [ih hinner' heq]
      | parenthesized => exact nomatch hlayer
      | operand => exact nomatch hlayer
  | parenthesized _ ih =>
      intro t ht heq
      cases ht with
      | operation hlayer => exact nomatch hlayer
      | single hlayer => exact nomatch hlayer
      | parenthesized hinner =>
          rw [leaves_enclosed, leaves_enclosed] at heq
          rw [ih hinner (List.append_cancel_right (List.cons.inj heq).2)]
      | operand => simp [Tree.leaves, Tree.leavesAll] at heq
  | operand _ =>
      intro t ht heq
      cases ht with
      | operation hlayer => exact nomatch hlayer
      | single hlayer => exact nomatch hlayer
      | parenthesized => simp [Tree.leaves, Tree.leavesAll] at heq
      | operand => rw [(List.cons.inj heq).1]

theorem parse_eq_singleton (ht : IsDerivation level t) (direction : Direction) :
    parse (restarted level) t.leaves direction = [t] := by
  have hnodup : (parse (restarted level) t.leaves direction).Nodup :=
    Chart.parse_nodup (wellFormed_restarted level)
  have hperm : (parse (restarted level) t.leaves direction).Perm [t] := by
    rw [List.perm_ext_iff_of_nodup hnodup (List.nodup_singleton t)]
    intro s
    rw [mem_parse_iff_isDerivation, List.mem_singleton]
    constructor
    · rintro ⟨hs, hleaves⟩
      exact hs.unique ht hleaves
    · rintro rfl
      exact ⟨ht, rfl⟩
  exact List.perm_singleton.mp hperm

/-- **The grammar of arithmetic expressions is unambiguous from each of its nonterminals.** -/
theorem length_parse_le_one : ∀ start ∈ ["E", "T", "F"], ∃ g, grammar.withStart start = .ok g ∧
    ∀ (tokens : List String) (direction : Direction), (parse g tokens direction).length ≤ 1 := by
  intro start hstart
  obtain ⟨level, rfl⟩ := exists_level hstart
  refine ⟨restarted level, withStart_name level, fun tokens direction => ?_⟩
  cases hparse : parse (restarted level) tokens direction with
  | nil => exact Nat.zero_le 1
  | cons t more =>
      obtain ⟨ht, rfl⟩ := mem_parse_iff_isDerivation.mp (hparse ▸ List.mem_cons_self)
      rw [← hparse, parse_eq_singleton ht]
      exact Nat.le_refl 1

/-- Two differences in parentheses are a factor in one way, though they are three operands in a row. -/
theorem length_parse_factor : "F" ∈ ["E", "T", "F"] ∧ ∃ g, grammar.withStart "F" = .ok g ∧
    (parse g ["(", "a", "-", "b", "-", "c", ")"] .rightmost).length = 1 := by
  have hstart : "F" ∈ ["E", "T", "F"] := by decide
  obtain ⟨g, hg, hle⟩ := length_parse_le_one "F" hstart
  obtain ⟨-, rfl⟩ := Grammar.withStart_eq_ok_iff.mp hg
  exact ⟨hstart, _, hg, Nat.le_antisymm (hle _ _) (by decide +kernel)⟩

end ParseForest.Arithmetic
