import Mathlib.Data.Finset.Card
import Mathlib.Data.List.Basic
import Mathlib.Data.List.Nodup
import Mathlib.Data.List.TakeWhile
import Mathlib.Tactic.Choose
import ParseForest.Chart.Statistics
import ParseForest.Proofs.Derivation.Frontier
import ParseForest.Proofs.Derivation.UnitChain
import ParseForest.Proofs.Grammar.Rules

/-! # The count by rewriting

The leftmost derivations of some tokens can be counted without trees and without a chart: expand the first
nonterminal of a form in every way, and give up on a form that is longer than the tokens or does not begin
like them (`countLeftmost`).

Where no alternative is empty and no chain of single nonterminals leads back, rewriting makes a form
longer or brings it closer to its terminals (`length_lt_or_weight_lt`), so trying every alternative of the
first nonterminal comes to an end.  What is given up derives nothing: a form never gets shorter
(`Steps.length_le`), and the terminals before its first nonterminal stay (`Steps.prefix_tokens`).  So what
is counted is the number of derivations of the tokens from the form (`exists_derivations`). -/

namespace ParseForest

variable {g : Grammar} {tokens : List String}

/-! ### The first nonterminal of a form -/

theorem Form.exists_first (form : Form) :
    (∃ before, form = Form.ofTokens before) ∨
      ∃ before name after, form = Form.ofTokens before ++ .nonterminal name :: after := by
  induction form with
  | nil => exact Or.inl ⟨[], rfl⟩
  | cons symbol form ih =>
      cases symbol with
      | nonterminal name => exact Or.inr ⟨[], name, form, rfl⟩
      | terminal text =>
          rcases ih with ⟨before, rfl⟩ | ⟨before, name, after, rfl⟩
          · exact Or.inl ⟨text :: before, rfl⟩
          · exact Or.inr ⟨text :: before, name, after, rfl⟩

theorem Form.isTerminal_of_mem {before : List String} :
    ∀ symbol ∈ Form.ofTokens before, symbol.isTerminal = true :=
  Form.all_terminal_iff.mpr ⟨before, rfl⟩

theorem Form.not_mem_ofTokens {name : String} {before : List String} :
    Symbol.nonterminal name ∉ Form.ofTokens before :=
  fun h => absurd (Form.isTerminal_of_mem _ h) Bool.false_ne_true

theorem Form.length_ofTokens (before : List String) :
    (Form.ofTokens before).length = before.length := List.length_map _

theorem agree_iff {before : List String} (hlen : before.length ≤ tokens.length) :
    ¬((Form.ofTokens before).zip tokens).any (fun pair => pair.1.text ≠ pair.2) = true ↔
      before <+: tokens := by
  induction before generalizing tokens with
  | nil => simp [Form.ofTokens]
  | cons text before ih =>
      cases tokens with
      | nil => exact absurd hlen (Nat.not_succ_le_zero _)
      | cons token tokens =>
          have hcons : Form.ofTokens (text :: before) = .terminal text :: Form.ofTokens before := rfl
          rw [hcons, List.zip_cons_cons, List.any_cons, Bool.or_eq_true, not_or,
            ih (Nat.le_of_succ_le_succ hlen), List.cons_prefix_cons, decide_eq_true_eq, not_not]
          rfl

/-! ### Steps from a form -/

namespace Grammar

variable {direction : Direction} {last form : Form} {rest : List Form}

theorem Steps.length_le (hempty : g.NoEmpty) (h : g.Steps direction last form rest) :
    form.length ≤ last.length := by
  induction h with
  | done => exact Nat.le_refl _
  | step hstep _ ih =>
      obtain ⟨before, name, alternative, after, rfl, rfl, hexp, -⟩ := step_iff.mp hstep
      have hne : alternative ≠ [] := fun he => hempty name (he ▸ hexp)
      have hpos := List.length_pos_iff.mpr hne
      simp only [List.length_append, List.length_cons] at ih ⊢
      omega

theorem Step.keeps_tokens {next : Form} {before : List String} {more : Form}
    (h : g.Step .leftmost form next) (hform : form = Form.ofTokens before ++ more) :
    ∃ more', next = Form.ofTokens before ++ more' := by
  obtain ⟨upto, name, alternative, after, rfl, rfl, -, -⟩ := step_iff.mp h
  rcases List.append_eq_append_iff.mp hform with ⟨between, hbefore, hplace⟩ | ⟨between, rfl, -⟩
  · cases between with
    | nil =>
        rw [List.append_nil] at hbefore
        exact ⟨alternative ++ after, by rw [hbefore, List.append_assoc]⟩
    | cons symbol between =>
        obtain ⟨rfl, -⟩ := List.cons.inj hplace
        have hmem : Symbol.nonterminal name ∈ Form.ofTokens before := by
          rw [hbefore]
          exact List.mem_append_right _ List.mem_cons_self
        exact absurd hmem Form.not_mem_ofTokens
  · exact ⟨between ++ alternative ++ after, by simp only [List.append_assoc]⟩

theorem Steps.prefix_tokens (h : g.Steps .leftmost last form rest) {before : List String} {more : Form}
    (hform : form = Form.ofTokens before ++ more) : Form.ofTokens before <+: last := by
  induction h generalizing more with
  | done => exact ⟨more, hform.symm⟩
  | step hstep _ ih =>
      obtain ⟨more', hnext⟩ := hstep.keeps_tokens hform
      exact ih hnext

theorem prefix_of_ofTokens_prefix {before : List String}
    (h : Form.ofTokens before <+: Form.ofTokens tokens) : before <+: tokens := by
  obtain ⟨more, hmore⟩ := h
  obtain ⟨upto, after, rfl, hupto, -⟩ := List.map_eq_append_iff.mp hmore.symm
  rw [List.map_injective_iff.mpr (fun _ _ => Symbol.terminal.inj) hupto]
  exact List.prefix_append _ _

theorem steps_ofTokens_iff {before : List String} :
    g.Steps direction (Form.ofTokens tokens) (Form.ofTokens before) rest ↔
      before = tokens ∧ rest = [] := by
  constructor
  · intro h
    generalize hform : Form.ofTokens before = form at h
    cases h with
    | done =>
        exact ⟨List.map_injective_iff.mpr (fun _ _ => Symbol.terminal.inj) hform, rfl⟩
    | step hstep _ =>
        obtain ⟨upto, name, alternative, after, rfl, -, -, -⟩ := step_iff.mp hstep
        have hmem : Symbol.nonterminal name ∈ Form.ofTokens before := by
          rw [hform]
          exact List.mem_append_right _ List.mem_cons_self
        exact absurd hmem Form.not_mem_ofTokens
  · rintro ⟨rfl, rfl⟩
    exact .done

/-- From a form with a first nonterminal the derivations go on with each of its alternatives. -/
theorem steps_first_iff {before : List String} {name : String} {after : Form} :
    g.Steps .leftmost (Form.ofTokens tokens) (Form.ofTokens before ++ .nonterminal name :: after) rest ↔
      ∃ alternative ∈ g.alternatives name, ∃ later,
        g.Steps .leftmost (Form.ofTokens tokens) (Form.ofTokens before ++ alternative ++ after) later ∧
          (Form.ofTokens before ++ alternative ++ after) :: later = rest := by
  constructor
  · intro h
    generalize hform : Form.ofTokens before ++ .nonterminal name :: after = form at h
    cases h with
    | done =>
        have hmem : Symbol.nonterminal name ∈ Form.ofTokens tokens := by
          rw [← hform]
          exact List.mem_append_right _ List.mem_cons_self
        exact absurd hmem Form.not_mem_ofTokens
    | step hstep hlater =>
        obtain ⟨before', name', alternative, after', rfl, rfl, hexp, houter⟩ := step_iff.mp hstep
        have hbefore : ∀ symbol ∈ Direction.leftmost.outer (Form.ofTokens before) after,
            symbol.isTerminal = true := Form.isTerminal_of_mem
        obtain ⟨rfl, rfl, rfl⟩ := Form.place_unique hform hbefore houter
        exact ⟨alternative, hexp, _, hlater, rfl⟩
  · rintro ⟨alternative, hexp, later, hlater, rfl⟩
    exact .step (.leftmost before name alternative after hexp) hlater

/-! ### Rewriting comes to an end -/

open Classical in
/-- The number of nonterminals that single nonterminals lead to. -/
noncomputable def unitRank (g : Grammar) (name : String) : Nat :=
  (g.names.toFinset.filter fun child => Relation.TransGen g.UnitStep name child).card

theorem unitRank_lt (hg : g.WellFormed) (hunit : g.UnitAcyclic) {name child : String}
    (h : g.UnitStep name child) : g.unitRank child < g.unitRank name := by
  classical
  unfold unitRank
  refine Finset.card_lt_card (Finset.ssubset_iff_subset_ne.mpr ⟨?_, fun heq => ?_⟩)
  · refine Finset.monotone_filter_right _ ?_
    intro other _ hother
    exact .head h hother
  · have hchild : child ∈ g.names := hg.mem_names_of_expands h (List.mem_singleton.mpr rfl)
    have hmem : child ∈ g.names.toFinset.filter fun other => Relation.TransGen g.UnitStep name other :=
      Finset.mem_filter.mpr ⟨List.mem_toFinset.mpr hchild, .single h⟩
    rw [← heq] at hmem
    exact hunit child (Finset.mem_filter.mp hmem).2

/-- How far a symbol is from a terminal, as far as rewriting leaves the length as it is. -/
noncomputable def symbolWeight (g : Grammar) : Symbol → Nat
  | .terminal _ => 0
  | .nonterminal name => g.unitRank name + 1

/-- The weight of all the symbols of a form. -/
noncomputable def formWeight (g : Grammar) (form : Form) : Nat :=
  total (form.map g.symbolWeight)

theorem formWeight_append (form form' : Form) :
    g.formWeight (form ++ form') = g.formWeight form + g.formWeight form' := by
  unfold formWeight
  rw [List.map_append, total_append]

theorem formWeight_cons (symbol : Symbol) (form : Form) :
    g.formWeight (symbol :: form) = g.symbolWeight symbol + g.formWeight form := rfl

theorem formWeight_singleton (symbol : Symbol) : g.formWeight [symbol] = g.symbolWeight symbol := rfl

/-- Rewriting makes a form longer, or leaves its length and makes it lighter. -/
theorem length_lt_or_weight_lt (hg : g.WellFormed) (hempty : g.NoEmpty) (hunit : g.UnitAcyclic)
    {before after : Form} {name : String} {alternative : Alternative} (h : g.Expands name alternative) :
    (before ++ .nonterminal name :: after).length < (before ++ alternative ++ after).length ∨
      (before ++ alternative ++ after).length = (before ++ .nonterminal name :: after).length ∧
        g.formWeight (before ++ alternative ++ after) <
          g.formWeight (before ++ .nonterminal name :: after) := by
  simp only [formWeight_append, formWeight_cons, List.length_append, List.length_cons]
  match alternative, h with
  | [], h => exact absurd h (hempty name)
  | [.terminal text], _ =>
      right
      simp only [formWeight_singleton, symbolWeight, List.length_singleton]
      omega
  | [.nonterminal child], h =>
      right
      have hlt := unitRank_lt hg hunit h
      simp only [formWeight_singleton, symbolWeight, List.length_singleton]
      omega
  | _ :: _ :: _, _ =>
      left
      simp only [List.length_cons]
      omega

/-! ### Every way to expand the first nonterminal -/

/-- The forms that one step from the left leads to. -/
def leftmostForms (g : Grammar) (form : Form) : List Form :=
  match form.dropWhile Symbol.isTerminal with
  | [] => []
  | symbol :: after =>
      (g.alternatives symbol.text).map fun alternative =>
        form.takeWhile Symbol.isTerminal ++ alternative ++ after

section

variable {before : List String} {name : String} {after : Form}

theorem takeWhile_first : (Form.ofTokens before ++ .nonterminal name :: after).takeWhile
    Symbol.isTerminal = Form.ofTokens before := by
  rw [List.takeWhile_append_of_pos Form.isTerminal_of_mem,
    List.takeWhile_cons_of_neg Bool.false_ne_true, List.append_nil]

theorem dropWhile_first : (Form.ofTokens before ++ .nonterminal name :: after).dropWhile
    Symbol.isTerminal = .nonterminal name :: after := by
  rw [List.dropWhile_append_of_pos Form.isTerminal_of_mem,
    List.dropWhile_cons_of_neg Bool.false_ne_true]

theorem takeWhile_ofTokens : (Form.ofTokens before).takeWhile Symbol.isTerminal =
    Form.ofTokens before := List.takeWhile_eq_self_iff.mpr Form.isTerminal_of_mem

theorem leftmostForms_ofTokens : g.leftmostForms (Form.ofTokens before) = [] := by
  unfold leftmostForms
  rw [List.dropWhile_eq_nil_iff.mpr Form.isTerminal_of_mem]

theorem leftmostForms_first :
    g.leftmostForms (Form.ofTokens before ++ .nonterminal name :: after) =
      (g.alternatives name).map fun alternative => Form.ofTokens before ++ alternative ++ after := by
  unfold leftmostForms
  rw [dropWhile_first, takeWhile_first]
  rfl

end

theorem leftmostForms_decreasing (hg : g.WellFormed) (hempty : g.NoEmpty) (hunit : g.UnitAcyclic)
    {form next : Form} (h : next ∈ g.leftmostForms form) :
    form.length < next.length ∨
      next.length = form.length ∧ g.formWeight next < g.formWeight form := by
  rcases form.exists_first with ⟨before, rfl⟩ | ⟨before, name, after, rfl⟩
  · rw [leftmostForms_ofTokens] at h
    exact absurd h List.not_mem_nil
  · rw [leftmostForms_first] at h
    obtain ⟨alternative, halt, rfl⟩ := List.mem_map.mp h
    exact length_lt_or_weight_lt hg hempty hunit halt

/-! ### The count -/

/-- The number of leftmost derivations of the tokens from a form, counted by rewriting it.  A form that is
too long or does not begin like the tokens counts for nothing; nothing else stops the rewriting, so what
is asked of the grammar is what brings it to an end. -/
def countLeftmost (g : Grammar) (hg : g.WellFormed) (hempty : g.NoEmpty) (hunit : g.UnitAcyclic)
    (tokens : List String) (form : Form) : Nat :=
  if tokens.length < form.length then 0
  else if ((form.takeWhile Symbol.isTerminal).zip tokens).any fun pair => pair.1.text ≠ pair.2 then 0
  else if form.all Symbol.isTerminal then
    if form.length = tokens.length then 1 else 0
  else
    total ((g.leftmostForms form).attach.map fun next =>
      countLeftmost g hg hempty hunit tokens next.1)
termination_by (tokens.length + 1 - form.length, g.formWeight form)
decreasing_by
  -- a form that gets longer is within the length of the tokens, so there is less room than before
  rcases leftmostForms_decreasing hg hempty hunit next.2 with hlonger | ⟨hsame, hlighter⟩
  · exact Prod.Lex.left _ _ (by omega)
  · rw [hsame]
    exact Prod.Lex.right _ hlighter

/-- The list holds each derivation of the tokens from the form once, without the form itself. -/
structure ListsDerivations (g : Grammar) (tokens : List String) (form : Form)
    (derivations : List (List Form)) : Prop where
  nodup : derivations.Nodup
  mem_iff : ∀ rest, rest ∈ derivations ↔ g.Steps .leftmost (Form.ofTokens tokens) form rest

theorem listsDerivations_nil (h : ∀ rest, ¬g.Steps .leftmost (Form.ofTokens tokens) form rest) :
    g.ListsDerivations tokens form [] :=
  ⟨List.nodup_nil, fun rest => ⟨fun hm => absurd hm List.not_mem_nil, fun hs => absurd hs (h rest)⟩⟩

theorem listsDerivations_ofTokens {before : List String} :
    g.ListsDerivations tokens (Form.ofTokens before) (if before = tokens then [[]] else []) := by
  split
  · rename_i h
    refine ⟨List.nodup_singleton _, fun rest => ?_⟩
    rw [List.mem_singleton, steps_ofTokens_iff]
    exact ⟨fun hrest => ⟨h, hrest⟩, fun hrest => hrest.2⟩
  · rename_i h
    exact listsDerivations_nil fun rest hsteps => h (steps_ofTokens_iff.mp hsteps).1

/-- The derivations that go on with each alternative make up all of them. -/
theorem listsDerivations_first (hg : g.WellFormed) {before : List String} {name : String} {after : Form}
    {listing : Alternative → List (List Form)}
    (h : ∀ alternative ∈ g.alternatives name,
      g.ListsDerivations tokens (Form.ofTokens before ++ alternative ++ after) (listing alternative)) :
    g.ListsDerivations tokens (Form.ofTokens before ++ .nonterminal name :: after)
      ((g.alternatives name).flatMap fun alternative =>
        (listing alternative).map ((Form.ofTokens before ++ alternative ++ after) :: ·)) := by
  constructor
  · rw [List.nodup_flatMap]
    constructor
    · exact fun alternative halt => (h alternative halt).nodup.map (List.cons_injective)
    · refine (alternatives_nodup hg name).imp fun hne => ?_
      intro rest hrest hrest'
      obtain ⟨later, -, rfl⟩ := List.mem_map.mp hrest
      obtain ⟨later', -, heq⟩ := List.mem_map.mp hrest'
      have hforms := (List.cons.inj heq).1
      exact hne (List.append_cancel_left (List.append_cancel_right hforms)).symm
  · intro rest
    rw [List.mem_flatMap, steps_first_iff]
    refine exists_congr fun alternative => and_congr_right fun halt => ?_
    rw [List.mem_map]
    exact exists_congr fun later => and_congr_left fun _ => (h alternative halt).mem_iff later

theorem Steps.agree (h : g.Steps .leftmost (Form.ofTokens tokens) form rest) :
    ¬((form.takeWhile Symbol.isTerminal).zip tokens).any (fun pair => pair.1.text ≠ pair.2) = true := by
  have hagree : ∀ before more, form = Form.ofTokens before ++ more →
      ¬((Form.ofTokens before).zip tokens).any (fun pair => pair.1.text ≠ pair.2) = true := by
    intro before more hform
    have hbegin : before <+: tokens := prefix_of_ofTokens_prefix (h.prefix_tokens hform)
    exact (agree_iff hbegin.length_le).mpr hbegin
  rcases form.exists_first with ⟨before, rfl⟩ | ⟨before, name, after, rfl⟩
  · rw [takeWhile_ofTokens]
    exact hagree before [] (List.append_nil _).symm
  · rw [takeWhile_first]
    exact hagree before _ rfl

theorem eq_tokens {before : List String} (hlength : before.length = tokens.length)
    (hagree : ¬((Form.ofTokens before).zip tokens).any (fun pair => pair.1.text ≠ pair.2) = true) :
    before = tokens := by
  have hbegin : before <+: tokens := (agree_iff (Nat.le_of_eq hlength)).mp hagree
  exact hbegin.eq_of_length hlength

/-- **What is counted is the number of derivations**: the tokens have as many derivations from the
form as rewriting counts. -/
theorem exists_derivations (hg : g.WellFormed) (hempty : g.NoEmpty) (hunit : g.UnitAcyclic)
    (tokens : List String) (form : Form) :
    ∃ derivations, g.ListsDerivations tokens form derivations ∧
      g.countLeftmost hg hempty hunit tokens form = derivations.length := by
  -- the form is too long, differs from the tokens, is all terminals (as many or fewer), or is expanded
  fun_induction countLeftmost g hg hempty hunit tokens form with
  | case1 form hlong =>
      refine ⟨[], listsDerivations_nil fun rest h => ?_, rfl⟩
      have hle := h.length_le hempty
      rw [Form.length_ofTokens] at hle
      omega
  | case2 form _ hdiffer => exact ⟨[], listsDerivations_nil fun rest h => h.agree hdiffer, rfl⟩
  | case3 form _ hagree hall hlength =>
      obtain ⟨before, rfl⟩ := Form.all_terminal_iff.mp (List.all_eq_true.mp hall)
      rw [Form.length_ofTokens] at hlength
      rw [takeWhile_ofTokens] at hagree
      have heq : before = tokens := eq_tokens hlength hagree
      exact ⟨_, listsDerivations_ofTokens, by rw [if_pos heq]; rfl⟩
  | case4 form _ _ hall hlength =>
      obtain ⟨before, rfl⟩ := Form.all_terminal_iff.mp (List.all_eq_true.mp hall)
      rw [Form.length_ofTokens] at hlength
      have hne : before ≠ tokens := mt (congrArg List.length) hlength
      exact ⟨_, listsDerivations_ofTokens, by rw [if_neg hne]; rfl⟩
  | case5 form _ _ hall ih =>
      rcases form.exists_first with ⟨before, hbefore⟩ | ⟨before, name, after, rfl⟩
      · exact absurd (List.all_eq_true.mpr (Form.all_terminal_iff.mpr ⟨before, hbefore⟩)) hall
      · rw [List.attach_map_val (f := g.countLeftmost hg hempty hunit tokens), leftmostForms_first]
        have hnext : ∀ alternative ∈ g.alternatives name, ∃ derivations,
            g.ListsDerivations tokens (Form.ofTokens before ++ alternative ++ after) derivations ∧
              g.countLeftmost hg hempty hunit tokens (Form.ofTokens before ++ alternative ++ after) =
                derivations.length := by
          intro alternative halt
          have hmem : Form.ofTokens before ++ alternative ++ after ∈
              g.leftmostForms (Form.ofTokens before ++ .nonterminal name :: after) := by
            rw [leftmostForms_first]
            exact List.mem_map_of_mem halt
          exact ih ⟨_, hmem⟩
        choose! listing hlists hcounts using hnext
        refine ⟨_, listsDerivations_first hg hlists, ?_⟩
        rw [List.map_map, List.length_flatMap]
        simp only [List.length_map]
        exact congrArg total (List.map_congr_left hcounts)

end Grammar

end ParseForest
