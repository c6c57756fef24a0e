import Mathlib.Data.List.Basic
import ParseForest.Arithmetic.Grammar
import ParseForest.GrammarText.Reader
import ParseForest.Proofs.Grammar.Construction
import ParseForest.Proofs.Grammar.Rules

/-! # What can be built, and what it satisfies

`Grammar.Constructed` holds of the grammars that can be made at all: from productions, from rules,
from a text, from a file, the built-in one, and any of these with another start symbol.  All of
them are well-formed (`Constructed.wellFormed`).

The other way round, entries make a grammar when they leave nothing undefined: `offered` puts
together the alternatives that all the entries of a nonterminal give it, and what the checks of the
gathered rules amount to is said of the entries as they were given (`problems_eq_nil_iff`).  The
rule of a nonterminal then keeps the first occurrence of each alternative offered
(`alternatives?_gather`). -/

namespace ParseForest

/-! ### First occurrences -/

/-- The members of a list, each once, in the order in which they first occur. -/
structure FirstOccurrences {α : Type} [BEq α] (items kept : List α) : Prop where
  mem_iff : ∀ item, item ∈ kept ↔ item ∈ items
  ordered : kept.Pairwise fun a b => items.idxOf a < items.idxOf b

section

variable {α : Type} [BEq α] {items kept : List α}

theorem FirstOccurrences.nodup (h : FirstOccurrences items kept) : kept.Nodup := by
  refine h.ordered.imp fun hlt heq => ?_
  rw [heq] at hlt
  exact Nat.lt_irrefl _ hlt

variable [LawfulBEq α]

theorem idxOf_lt_of_filter {p : α → Bool} {a b : α} (ha : p a = true) (hb : p b = true)
    (h : (items.filter p).idxOf a < (items.filter p).idxOf b) : items.idxOf a < items.idxOf b := by
  induction items with
  | nil => exact absurd h (Nat.lt_irrefl _)
  | cons item items ih =>
      by_cases hitem : p item = true
      · rw [List.filter_cons_of_pos hitem] at h
        by_cases hia : item = a
        · subst hia
          have hne : item ≠ b := fun he => by simp [he] at h
          rw [List.idxOf_cons_self, List.idxOf_cons_ne _ hne]
          exact Nat.succ_pos _
        · by_cases hib : item = b
          · rw [hib, List.idxOf_cons_self] at h
            exact absurd h (Nat.not_lt_zero _)
          · rw [List.idxOf_cons_ne _ hia, List.idxOf_cons_ne _ hib] at h ⊢
            exact Nat.succ_lt_succ (ih (Nat.lt_of_succ_lt_succ h))
      · rw [List.filter_cons_of_neg hitem] at h
        have hia : item ≠ a := fun he => hitem (he ▸ ha)
        have hib : item ≠ b := fun he => hitem (he ▸ hb)
        rw [List.idxOf_cons_ne _ hia, List.idxOf_cons_ne _ hib]
        exact Nat.succ_lt_succ (ih h)

theorem firstOccurrences_eraseDups : (items : List α) → FirstOccurrences items items.eraseDups
  | [] => ⟨fun _ => Iff.rfl, List.Pairwise.nil⟩
  | item :: items => by
      have hrest := firstOccurrences_eraseDups (items.filter fun other => !other == item)
      refine ⟨fun _ => List.mem_eraseDups, ?_⟩
      rw [List.eraseDups_cons, List.pairwise_cons]
      have hne : ∀ other ∈ (items.filter fun other => !other == item).eraseDups, item ≠ other := by
        rintro other hother rfl
        have h := (List.mem_filter.mp (List.mem_eraseDups.mp hother)).2
        rw [beq_self_eq_true] at h
        exact Bool.false_ne_true h
      constructor
      · intro other hother
        rw [List.idxOf_cons_self, List.idxOf_cons_ne _ (hne other hother)]
        exact Nat.succ_pos _
      · refine (List.Pairwise.and_mem.mp hrest.ordered).imp ?_
        rintro a b ⟨ha, hb, hlt⟩
        rw [List.idxOf_cons_ne _ (hne a ha), List.idxOf_cons_ne _ (hne b hb)]
        have hpa := (List.mem_filter.mp (List.mem_eraseDups.mp ha)).2
        have hpb := (List.mem_filter.mp (List.mem_eraseDups.mp hb)).2
        exact Nat.succ_lt_succ (idxOf_lt_of_filter hpa hpb hlt)
termination_by items => items.length
decreasing_by exact Nat.lt_succ_of_le (List.length_filter_le _ _)

theorem firstOccurrences_iff : FirstOccurrences items kept ↔ kept = items.eraseDups := by
  constructor
  · intro h
    have hdups := firstOccurrences_eraseDups items
    have hperm : kept.Perm items.eraseDups :=
      (List.perm_ext_iff_of_nodup h.nodup hdups.nodup).mpr fun item => by
        rw [h.mem_iff, hdups.mem_iff]
    exact hperm.eq_of_pairwise (fun _ _ _ _ hab hba => absurd hba (Nat.lt_asymm hab)) h.ordered
      hdups.ordered
  · rintro rfl
    exact firstOccurrences_eraseDups items

end

namespace Grammar

/-! ### Entries without problems -/

variable {start : Symbol} {entries : List RuleEntry} {name : String}

/-- All alternatives that the entries offer a nonterminal, one entry after the other. -/
def offered (entries : List RuleEntry) (name : String) : List Alternative :=
  (entries.filter fun entry => entry.1 = .nonterminal name).flatMap Prod.snd

theorem gatheredAlternatives_eq : gatheredAlternatives entries name = (offered entries name).eraseDups :=
  rfl

theorem mem_offered {alternative : Alternative} :
    alternative ∈ offered entries name ↔
      ∃ entry ∈ entries, entry.1 = .nonterminal name ∧ alternative ∈ entry.2 := by
  unfold offered
  simp only [List.mem_flatMap, List.mem_filter, decide_eq_true_eq, and_assoc]

theorem mem_entryNames : name ∈ entryNames entries ↔ .nonterminal name ∈ entries.map Prod.fst := by
  unfold entryNames
  rw [List.mem_eraseDups, List.mem_filterMap, List.mem_map]
  simp only [Symbol.nonterminal?_eq_some]

theorem leftHandProblems_eq_nil_iff :
    leftHandProblems entries = [] ↔ ∀ text, .terminal text ∉ entries.map Prod.fst := by
  unfold leftHandProblems
  rw [List.map_eq_nil_iff, List.eq_nil_iff_forall_not_mem]
  refine forall_congr' fun text => not_congr ?_
  rw [List.mem_filterMap, List.mem_map]
  simp only [Symbol.terminal?_eq_some]

/-- The gathered rules can be read when each nonterminal given is offered an alternative, and every
nonterminal in what is offered is given. -/
theorem definitionProblems_gather_eq_nil_iff :
    definitionProblems (gather entries) = [] ↔
      ∀ name, .nonterminal name ∈ entries.map Prod.fst → offered entries name ≠ [] ∧
        ∀ alternative ∈ offered entries name, ∀ child, .nonterminal child ∈ alternative →
          .nonterminal child ∈ entries.map Prod.fst := by
  rw [definitionProblems_eq_nil_iff, names_gather]
  unfold gather
  rw [List.forall_mem_map]
  refine forall_congr' fun name => ?_
  rw [mem_entryNames]
  refine imp_congr_right fun _ => ?_
  rw [ruleProblems_eq_nil_iff, gatheredAlternatives_eq]
  refine and_congr (not_congr eraseDups_eq_nil_iff) ?_
  simp only [List.mem_filterMap, List.mem_flatten, List.mem_eraseDups, Symbol.nonterminal?_eq_some,
    mem_entryNames]
  constructor
  · intro h alternative halt child hchild
    exact h child ⟨_, ⟨alternative, halt, hchild⟩, rfl⟩
  · rintro h child ⟨_, ⟨alternative, halt, hsymbol⟩, rfl⟩
    exact h alternative halt child hsymbol

/-- What the checks of the gathered rules ask of the entries. -/
theorem problems_eq_nil_iff :
    problems start entries = [] ↔
      (∃ name, start = .nonterminal name ∧ .nonterminal name ∈ entries.map Prod.fst) ∧
      (∀ text, .terminal text ∉ entries.map Prod.fst) ∧
      (∀ name, .nonterminal name ∈ entries.map Prod.fst → offered entries name ≠ []) ∧
      ∀ entry ∈ entries, ∀ alternative ∈ entry.2, ∀ name, .nonterminal name ∈ alternative →
        .nonterminal name ∈ entries.map Prod.fst := by
  unfold problems
  rw [List.append_eq_nil_iff, List.append_eq_nil_iff, leftHandProblems_eq_nil_iff,
    startProblems_eq_nil_iff, names_gather, definitionProblems_gather_eq_nil_iff]
  simp only [mem_entryNames]
  constructor
  · rintro ⟨⟨hterminal, hstart⟩, hrules⟩
    refine ⟨hstart, hterminal, fun name hname => (hrules name hname).1, ?_⟩
    rintro ⟨lhs, alternatives⟩ hentry alternative halt child hchild
    have hlhs : lhs ∈ entries.map Prod.fst := List.mem_map.mpr ⟨_, hentry, rfl⟩
    cases lhs with
    | terminal text => exact absurd hlhs (hterminal text)
    | nonterminal name =>
        exact (hrules name hlhs).2 alternative (mem_offered.mpr ⟨_, hentry, rfl, halt⟩) child hchild
  · rintro ⟨hstart, hterminal, hoffered, hclosed⟩
    refine ⟨⟨hterminal, hstart⟩, fun name hname => ⟨hoffered name hname, ?_⟩⟩
    intro alternative halt child hchild
    obtain ⟨entry, hentry, -, hmem⟩ := mem_offered.mp halt
    exact hclosed entry hentry alternative hmem child hchild

theorem alternatives?_gather (start : String) (entries : List RuleEntry) (name : String) :
    (⟨start, gather entries⟩ : Grammar).alternatives? name =
      if .nonterminal name ∈ entries.map Prod.fst then some (offered entries name).eraseDups
      else none := by
  split
  · rename_i h
    have hn : (⟨start, gather entries⟩ : Grammar).names.Nodup := nodup_names_gather
    refine (alternatives?_eq_some_iff hn).mpr (List.mem_map.mpr ⟨name, ?_, rfl⟩)
    exact mem_entryNames.mpr h
  · rename_i h
    rw [alternatives?_eq_none]
    show name ∉ (gather entries).map Rule.name
    rw [names_gather, mem_entryNames]
    exact h

/-! ### Grammars that can be built -/

/-- The grammars that the constructors and the readers give, with any start symbol. -/
inductive Constructed : Grammar → Prop
  | ofProductions {start : Symbol} {productions : List Production} {g : Grammar} :
      ofProductions start productions = .ok g → Constructed g
  | ofRules {start : Symbol} {entries : List RuleEntry} {g : Grammar} :
      ofRules start entries = .ok g → Constructed g
  | ofText {file text : String} {g : Grammar} :
      GrammarText.ofText file text = .ok g → Constructed g
  | ofFile {files : Files} {file : String} {g : Grammar} :
      GrammarText.ofFile files file = .ok g → Constructed g
  | arithmetic : Constructed Arithmetic.grammar
  | withStart {g restarted : Grammar} {name : String} :
      Constructed g → g.withStart name = .ok restarted → Constructed restarted

theorem wellFormed_of_ofRuleLines {file : String} {rules : List RuleLine} {g : Grammar}
    (h : GrammarText.ofRuleLines file rules = .ok g) : g.WellFormed := by
  unfold GrammarText.ofRuleLines at h
  simp only at h
  split at h
  · rename_i built hbuilt
    cases h
    exact wellFormed_of_ofRules hbuilt
  · exact nomatch h

theorem wellFormed_of_ofLines {file : String} {lines : List LineRead} {g : Grammar}
    (h : GrammarText.ofLines file lines = .ok g) : g.WellFormed := by
  unfold GrammarText.ofLines at h
  split at h
  · exact wellFormed_of_ofRuleLines h
  · exact nomatch h

theorem wellFormed_of_ofFile {files : Files} {file : String} {g : Grammar}
    (h : GrammarText.ofFile files file = .ok g) : g.WellFormed := by
  unfold GrammarText.ofFile at h
  split at h
  · exact wellFormed_of_ofLines h
  · exact nomatch h

theorem wellFormed_arithmetic : Arithmetic.grammar.WellFormed := by decide

theorem Constructed.wellFormed {g : Grammar} (h : Constructed g) : g.WellFormed := by
  induction h with
  | ofProductions h => exact wellFormed_of_ofRules h
  | ofRules h => exact wellFormed_of_ofRules h
  | ofText h => exact wellFormed_of_ofLines h
  | ofFile h => exact wellFormed_of_ofFile h
  | arithmetic => exact wellFormed_arithmetic
  | withStart _ h ih =>
      obtain ⟨hname, rfl⟩ := withStart_eq_ok_iff.mp h
      exact ih.withStart hname

/-- **The invariant of grammars, and what can be built.**  Every grammar that can be made is
well-formed.  Entries make a grammar exactly when the start symbol is a nonterminal given by an entry,
no terminal is given, every nonterminal given is offered an alternative by its entries together, and
every nonterminal on a right-hand side is given; the rule of a nonterminal then holds the
alternatives offered to it, in order, with later repetitions left out. -/
theorem constructed_invariant :
    (∀ g : Grammar, Constructed g → g.WellFormed) ∧
    ∀ (start : Symbol) (entries : List RuleEntry),
      ((∃ g, ofRules start entries = .ok g) ↔
        (∃ name, start = .nonterminal name ∧ .nonterminal name ∈ entries.map Prod.fst) ∧
        (∀ text, .terminal text ∉ entries.map Prod.fst) ∧
        (∀ name, .nonterminal name ∈ entries.map Prod.fst → offered entries name ≠ []) ∧
        ∀ entry ∈ entries, ∀ alternative ∈ entry.2, ∀ name, .nonterminal name ∈ alternative →
          .nonterminal name ∈ entries.map Prod.fst) ∧
      ∀ g, ofRules start entries = .ok g →
        start = .nonterminal g.start ∧
        ∀ name,
          (.nonterminal name ∈ entries.map Prod.fst →
            ∃ kept, g.alternatives? name = some kept ∧
              FirstOccurrences (offered entries name) kept) ∧
          (.nonterminal name ∉ entries.map Prod.fst → g.alternatives? name = none) := by
  refine ⟨fun g hg => hg.wellFormed, fun start entries => ⟨?_, fun g hg => ?_⟩⟩
  · simp only [ofRules_eq_ok_iff, exists_and_left, exists_eq, and_true]
    exact problems_eq_nil_iff
  · obtain ⟨hproblems, rfl⟩ := ofRules_eq_ok_iff.mp hg
    obtain ⟨⟨name, rfl, -⟩, -⟩ := problems_eq_nil_iff.mp hproblems
    refine ⟨rfl, fun name => ⟨fun hname => ?_, fun hname => ?_⟩⟩
    · refine ⟨_, ?_, firstOccurrences_eraseDups _⟩
      rw [alternatives?_gather, if_pos hname]
    · rw [alternatives?_gather, if_neg hname]

/-- Entries that repeat, interleave and leave out: two for `S`, and two for `A`, of which one is empty. -/
def scatteredEntries : List RuleEntry :=
  [(.nonterminal "S", [[.nonterminal "A"], [.terminal "x"]]), (.nonterminal "A", []),
    (.nonterminal "S", [[.terminal "y"], [.nonterminal "A"]]), (.nonterminal "A", [[.terminal "a"]])]

/-- Scattered entries are gathered into one rule for each nonterminal, and the grammar keeps its
invariant when it is restarted. -/
theorem constructed_scatteredEntries_invariant :
    (∃ g restarted, ofRules (.nonterminal "S") scatteredEntries = .ok g ∧
      g.withStart "A" = .ok restarted ∧ restarted.WellFormed ∧
      g.alternatives? "S" = some [[.nonterminal "A"], [.terminal "x"], [.terminal "y"]]) ∧
    ¬∃ g, ofRules (.nonterminal "S") (scatteredEntries.take 2) = .ok g := by
  obtain ⟨hinvariant, hexact⟩ := constructed_invariant
  obtain ⟨hiff, halternatives⟩ := hexact (.nonterminal "S") scatteredEntries
  constructor
  · obtain ⟨g, hg⟩ := hiff.mpr (by
      refine ⟨⟨"S", rfl, by decide⟩, ?_, ?_, ?_⟩
      · intro text
        simp [scatteredEntries]
      · intro name hname
        simp only [scatteredEntries, List.map_cons, List.map_nil, List.mem_cons,
          Symbol.nonterminal.injEq, List.not_mem_nil, or_false] at hname
        rcases hname with rfl | rfl | rfl | rfl <;> decide
      · simp [scatteredEntries])
    obtain ⟨kept, hkept, hfirst⟩ := ((halternatives g hg).2 "S").1 (by decide)
    have hname : "A" ∈ g.names := by
      obtain ⟨kept, hkept, -⟩ := ((halternatives g hg).2 "A").1 (by decide)
      exact defines_iff.mp (by unfold defines; rw [hkept]; rfl)
    have hrestart := withStart_eq_ok hname
    refine ⟨g, _, hg, hrestart, hinvariant _ (.withStart (.ofRules hg) hrestart), ?_⟩
    rw [hkept, firstOccurrences_iff.mp hfirst]
    decide
  · rw [(hexact _ _).1]
    rintro ⟨-, -, hoffered, -⟩
    exact hoffered "A" (by decide) (by decide)

end Grammar

end ParseForest
