import ParseForest.Proofs.Grammar.Diagnosis
import ParseForest.Proofs.Grammar.Productions

/-! # How entries are grouped does not matter

Two lists of entries regroup each other (`Regroups`) when they give the same left-hand sides and offer the
same alternatives to each nonterminal, wherever these stand and however often they are repeated.  Gathered,
they are the same rules, perhaps in another order (`Regroups.gather_perm`), so they make the same grammar, or
are refused with reports that only differ in the terminals on left-hand sides, which are reported as often as
they are met.

Productions are regrouped by their left-hand sides before they are gathered.  That leaves the rules as they
are, also in their order (`gather_groupProductions`), and each terminal is met once then, so the report
is that of the single productions without its repetitions (`problems_groupProductions`). -/

namespace ParseForest

/-- A production as an entry of its own. -/
def Production.entry (production : Production) : RuleEntry :=
  (production.lhs, [production.rhs])

namespace Grammar

variable {start : Symbol} {entries entries' : List RuleEntry}

/-! ### Regrouped entries -/

/-- The same left-hand sides are given, and the alternatives offered to a nonterminal are the same up to
later repetitions. -/
structure Regroups (entries entries' : List RuleEntry) : Prop where
  lefts : ∀ lhs, lhs ∈ entries.map Prod.fst ↔ lhs ∈ entries'.map Prod.fst
  offers : ∀ name, .nonterminal name ∈ entries.map Prod.fst →
    ∃ kept, FirstOccurrences (offered entries name) kept ∧
      FirstOccurrences (offered entries' name) kept

theorem Regroups.cons_terminals (h : Regroups entries entries') (text : String)
    (as bs cs : List Alternative) :
    Regroups ((.terminal text, as) :: entries)
      ((.terminal text, bs) :: (.terminal text, cs) :: entries') := by
  refine ⟨fun lhs => ?_, fun name hname => ?_⟩
  · simp only [List.map_cons, List.mem_cons, h.lefts lhs, or_self_left]
  · simpa [offered] using h.offers name (by simpa using hname)

theorem Regroups.entryNames_perm (h : Regroups entries entries') :
    (entryNames entries).Perm (entryNames entries') := by
  unfold entryNames
  rw [List.perm_ext_iff_of_nodup (nodup_eraseDups _) (nodup_eraseDups _)]
  intro name
  have hlefts := h.lefts (.nonterminal name)
  rw [← mem_entryNames, ← mem_entryNames] at hlefts
  exact hlefts

/-- **Regrouped entries are gathered into the same rules,** perhaps in another order. -/
theorem Regroups.gather_perm (h : Regroups entries entries') :
    (gather entries).Perm (gather entries') := by
  -- each name is offered the same, so only the order of the names can differ
  have hrules : gather entries =
      (entryNames entries).map fun name => ⟨name, gatheredAlternatives entries' name⟩ := by
    unfold gather
    refine List.map_congr_left fun name hname => ?_
    obtain ⟨kept, hkept, hkept'⟩ := h.offers name (mem_entryNames.mp hname)
    rw [gatheredAlternatives_eq, gatheredAlternatives_eq, ← firstOccurrences_iff.mp hkept,
      ← firstOccurrences_iff.mp hkept']
  rw [hrules]
  exact h.entryNames_perm.map _

/-! ### Kinds of problems -/

theorem mem_leftHandProblems {problem : Problem} :
    problem ∈ leftHandProblems entries ↔
      ∃ text, .terminal text ∈ entries.map Prod.fst ∧ problem = .terminalLeftHandSide text := by
  simp only [leftHandProblems, List.mem_map, List.mem_filterMap, Symbol.terminal?_eq_some]
  constructor
  · rintro ⟨text, hentry, rfl⟩
    exact ⟨text, hentry, rfl⟩
  · rintro ⟨text, hentry, rfl⟩
    exact ⟨text, hentry, rfl⟩

theorem kind_of_mem_startProblems {rules : List Rule} {problem : Problem}
    (h : problem ∈ startProblems start rules) :
    (∃ text, problem = .startNotNonterminal text) ∨ ∃ name, problem = .missingStart name := by
  cases start with
  | terminal text => exact .inl ⟨text, List.mem_singleton.mp h⟩
  | nonterminal name =>
      simp only [startProblems] at h
      split at h
      · simp at h
      · exact .inr ⟨name, List.mem_singleton.mp h⟩

theorem kind_of_mem_definitionProblems {rules : List Rule} {problem : Problem}
    (h : problem ∈ definitionProblems rules) :
    (∃ name, problem = .noAlternatives name) ∨ ∃ name, problem = .undefinedNonterminal name := by
  unfold definitionProblems at h
  rw [List.mem_eraseDups, List.mem_flatMap] at h
  obtain ⟨rule, -, hproblem⟩ := h
  unfold ruleProblems at hproblem
  split at hproblem
  · exact .inl ⟨rule.name, List.mem_singleton.mp hproblem⟩
  · obtain ⟨name, -, rfl⟩ := List.mem_map.mp hproblem
    exact .inr ⟨name, rfl⟩

theorem terminalLeftHandSide_not_mem (start : Symbol) (rules : List Rule) (text : String) :
    .terminalLeftHandSide text ∉ startProblems start rules ++ definitionProblems rules := by
  rw [List.mem_append]
  rintro (h | h)
  · rcases kind_of_mem_startProblems h with ⟨_, he⟩ | ⟨_, he⟩ <;> cases he
  · rcases kind_of_mem_definitionProblems h with ⟨_, he⟩ | ⟨_, he⟩ <;> cases he

/-- The reports are the same but for the terminals on left-hand sides, which come first: these may be
reported in another order, and more or less often. -/
def AgreeUpToLefts (report report' : List Problem) : Prop :=
  ∃ (lefts lefts' : List String) (others : List Problem),
    report = lefts.map .terminalLeftHandSide ++ others ∧
    report' = lefts'.map .terminalLeftHandSide ++ others ∧
    (∀ text, text ∈ lefts ↔ text ∈ lefts') ∧
    ∀ text, .terminalLeftHandSide text ∉ others

theorem Regroups.problems_agree (h : Regroups entries entries') (start : Symbol) :
    AgreeUpToLefts (problems start entries) (problems start entries') := by
  refine ⟨entries.filterMap fun entry => entry.1.terminal?,
    entries'.filterMap fun entry => entry.1.terminal?,
    startProblems start (gather entries') ++ definitionProblems (gather entries'), ?_, ?_, ?_,
    terminalLeftHandSide_not_mem start _⟩
  · rw [← startProblems_perm h.gather_perm, ← definitionProblems_perm nodup_names_gather h.gather_perm,
      ← List.append_assoc]
    rfl
  · rw [← List.append_assoc]
    rfl
  · intro text
    have hlefts := h.lefts (.terminal text)
    simpa using hlefts

/-! ### What is made of them -/

theorem exists_ofRules_iff : (∃ g, ofRules start entries = .ok g) ↔ problems start entries = [] := by
  simp only [ofRules_eq_ok_iff, exists_and_left, exists_eq, and_true]

theorem ofRules_eq_error_iff {malformed : Malformed} :
    ofRules start entries = .error malformed ↔
      problems start entries ≠ [] ∧ malformed = ⟨problems start entries⟩ := by
  by_cases hnil : problems start entries = []
  · simp [ofRules_eq_ok_iff.mpr ⟨hnil, rfl⟩, hnil]
  · simp [ofRules_eq_error hnil, hnil, eq_comm]

theorem AgreeUpToLefts.eq_nil_iff {report report' : List Problem} (h : AgreeUpToLefts report report') :
    report = [] ↔ report' = [] := by
  obtain ⟨lefts, lefts', others, rfl, rfl, hlefts, -⟩ := h
  have hnil : lefts = [] ↔ lefts' = [] := by simp only [List.eq_nil_iff_forall_not_mem, hlefts]
  simp [hnil]

theorem Regroups.same (h : Regroups entries entries') {g g' : Grammar}
    (hg : ofRules start entries = .ok g) (hg' : ofRules start entries' = .ok g') : g.Same g' := by
  obtain ⟨-, rfl⟩ := ofRules_eq_ok_iff.mp hg
  obtain ⟨-, rfl⟩ := ofRules_eq_ok_iff.mp hg'
  have hn : (⟨start.text, gather entries'⟩ : Grammar).names.Nodup := nodup_names_gather
  exact same_of_perm hn h.gather_perm

/-! ### Productions one by one -/

variable {productions : List Production}

theorem offered_map_entry (name : String) :
    offered (productions.map Production.entry) name =
      (productions.filter fun production => production.lhs = .nonterminal name).map Production.rhs := by
  induction productions with
  | nil => rfl
  | cons production productions ih =>
      by_cases h : production.lhs = .nonterminal name <;> simp_all [offered, Production.entry]

theorem offered_groupProductions (name : String) :
    offered (groupProductions productions) name = offered (productions.map Production.entry) name := by
  have hn : (productions.map Production.lhs).eraseDups.Nodup := nodup_eraseDups _
  rw [offered_map_entry]
  unfold offered groupProductions
  rw [List.filter_map, List.flatMap_map]
  show (((productions.map Production.lhs).eraseDups.filter fun lhs => lhs = .nonterminal name).flatMap
    fun lhs => (productions.filter fun production => production.lhs = lhs).map Production.rhs) = _
  rw [List.filter_eq, hn.count]
  split
  · simp
  · rename_i h
    have hnone : (productions.filter fun production => production.lhs = .nonterminal name) = [] := by
      simpa using h
    simp [hnone]

theorem filterMap_eraseDups {α β : Type} [BEq α] [LawfulBEq α] [BEq β] [LawfulBEq β]
    {f : α → Option β} (hf : ∀ a a' b, b ∈ f a → b ∈ f a' → a = a') (items : List α) :
    items.eraseDups.filterMap f = (items.filterMap f).eraseDups := by
  have hn : (items.eraseDups.filterMap f).Nodup := (nodup_eraseDups items).filterMap hf
  rw [← eraseDups_eq_self hn, List.filterMap_eq_flatMap_toList, List.filterMap_eq_flatMap_toList,
    eraseDups_flatMap_eraseDups]

theorem filterMap_groupProductions {f : Symbol → Option String}
    (hf : ∀ lhs lhs' text, text ∈ f lhs → text ∈ f lhs' → lhs = lhs') :
    (groupProductions productions).filterMap (fun entry => f entry.1) =
      ((productions.map Production.entry).filterMap fun entry => f entry.1).eraseDups := by
  have hgroups : (groupProductions productions).filterMap (fun entry => f entry.1) =
      ((groupProductions productions).map Prod.fst).filterMap f := List.filterMap_map.symm
  have hsingles : (productions.map Production.entry).filterMap (fun entry => f entry.1) =
      (productions.map Production.lhs).filterMap f := by
    rw [List.filterMap_map, List.filterMap_map]
    rfl
  rw [hgroups, hsingles, lefts_groupProductions, filterMap_eraseDups hf]

theorem entryNames_groupProductions :
    entryNames (groupProductions productions) = entryNames (productions.map Production.entry) := by
  unfold entryNames
  rw [filterMap_groupProductions (by simp +contextual), eraseDups_eq_self (nodup_eraseDups _)]

theorem leftHandProblems_groupProductions :
    leftHandProblems (groupProductions productions) =
      (leftHandProblems (productions.map Production.entry)).eraseDups := by
  unfold leftHandProblems
  rw [filterMap_groupProductions (by simp +contextual),
    eraseDups_map fun _ _ => Problem.terminalLeftHandSide.inj]

/-- **Grouping productions leaves the rules as they are.** -/
theorem gather_groupProductions :
    gather (groupProductions productions) = gather (productions.map Production.entry) := by
  unfold gather
  simp only [entryNames_groupProductions, gatheredAlternatives_eq, offered_groupProductions]

/-! ### Reports without repetitions -/

theorem nodup_startProblems (start : Symbol) (rules : List Rule) : (startProblems start rules).Nodup := by
  unfold startProblems
  split
  · exact List.nodup_singleton _
  · split
    · exact List.nodup_nil
    · exact List.nodup_singleton _

theorem nodup_problems_rules (start : Symbol) (rules : List Rule) :
    (startProblems start rules ++ definitionProblems rules).Nodup := by
  refine List.nodup_append.mpr ⟨nodup_startProblems start rules, nodup_eraseDups _, ?_⟩
  rintro problem hstart _ hdefinition rfl
  rcases kind_of_mem_startProblems hstart with ⟨_, rfl⟩ | ⟨_, rfl⟩ <;>
    rcases kind_of_mem_definitionProblems hdefinition with ⟨_, he⟩ | ⟨_, he⟩ <;> cases he

theorem eraseDups_append_of_nodup {α : Type} [BEq α] [LawfulBEq α] {as bs : List α} (hn : bs.Nodup)
    (hdisjoint : ∀ b ∈ bs, b ∉ as) : (as ++ bs).eraseDups = as.eraseDups ++ bs := by
  have hkept : bs.removeAll as = bs := by
    refine List.filter_eq_self.mpr fun b hb => ?_
    simpa using hdisjoint b hb
  rw [List.eraseDups_append, hkept, eraseDups_eq_self hn]

/-- **The report on grouped productions is that on the single ones without its repetitions.** -/
theorem problems_groupProductions (start : Symbol) (productions : List Production) :
    problems start (groupProductions productions) =
      (problems start (productions.map Production.entry)).eraseDups := by
  unfold problems
  rw [gather_groupProductions, leftHandProblems_groupProductions, List.append_assoc, List.append_assoc,
    eraseDups_append_of_nodup (nodup_problems_rules start _)]
  rintro problem hproblem hleft
  obtain ⟨text, -, rfl⟩ := mem_leftHandProblems.mp hleft
  exact terminalLeftHandSide_not_mem start _ text hproblem

/-! ### Grouping -/

/-- **How rules are grouped does not matter.**  Of two lists of entries that regroup each other both make a
grammar or neither does; the grammars are the same, and the reports agree up to the order and number of the
terminals reported on left-hand sides.  Productions make the grammar that they make as entries of their own,
and where they make none, all that is reported of them as entries of their own is reported once, at its first
place. -/
theorem ofRules_regrouped (start : Symbol) :
    (∀ entries entries', Regroups entries entries' →
      ((∃ g, ofRules start entries = .ok g) ↔ ∃ g, ofRules start entries' = .ok g) ∧
      (∀ g g', ofRules start entries = .ok g → ofRules start entries' = .ok g' → g.Same g') ∧
      ∀ malformed malformed', ofRules start entries = .error malformed →
        ofRules start entries' = .error malformed' →
        AgreeUpToLefts malformed.problems malformed'.problems) ∧
    ∀ productions,
      (∀ g, ofProductions start productions = .ok g ↔
        ofRules start (productions.map Production.entry) = .ok g) ∧
      ∀ malformed, ofProductions start productions = .error malformed ↔
        ∃ single, ofRules start (productions.map Production.entry) = .error single ∧
          FirstOccurrences single.problems malformed.problems := by
  refine ⟨fun entries entries' h => ⟨?_, fun g g' hg hg' => h.same hg hg', ?_⟩,
    fun productions => ⟨?_, ?_⟩⟩
  · rw [exists_ofRules_iff, exists_ofRules_iff]
    exact (h.problems_agree start).eq_nil_iff
  · intro malformed malformed' hm hm'
    obtain ⟨-, rfl⟩ := ofRules_eq_error_iff.mp hm
    obtain ⟨-, rfl⟩ := ofRules_eq_error_iff.mp hm'
    exact h.problems_agree start
  · intro g
    unfold ofProductions
    rw [ofRules_eq_ok_iff, ofRules_eq_ok_iff, problems_groupProductions, eraseDups_eq_nil_iff,
      gather_groupProductions]
  · rintro ⟨found⟩
    unfold ofProductions
    simp only [ofRules_eq_error_iff, problems_groupProductions, firstOccurrences_iff, Malformed.mk.injEq,
      ne_eq, eraseDups_eq_nil_iff]
    constructor
    · rintro ⟨hne, rfl⟩
      exact ⟨_, ⟨hne, rfl⟩, rfl⟩
    · rintro ⟨_, ⟨hne, rfl⟩, rfl⟩
      exact ⟨hne, rfl⟩

/-- The scattered entries put together, in the other order; `A` is offered its alternative twice. -/
def gatheredEntries : List RuleEntry :=
  [(.nonterminal "A", [[.terminal "a"], [.terminal "a"]]),
    (.nonterminal "S", [[.nonterminal "A"], [.terminal "x"], [.terminal "y"]])]

theorem regroups_scatteredEntries : Regroups scatteredEntries gatheredEntries := by
  refine ⟨fun lhs => ⟨fun h => ?_, fun h => ?_⟩, fun name hname => ?_⟩
  · exact (by decide : scatteredEntries.map Prod.fst ⊆ gatheredEntries.map Prod.fst) h
  · exact (by decide : gatheredEntries.map Prod.fst ⊆ scatteredEntries.map Prod.fst) h
  · have hcases : name = "S" ∨ name = "A" := by
      simp only [scatteredEntries, List.map_cons, List.map_nil, List.mem_cons, Symbol.nonterminal.injEq,
        List.not_mem_nil, or_false] at hname
      tauto
    rcases hcases with rfl | rfl <;>
      exact ⟨_, firstOccurrences_iff.mpr rfl, firstOccurrences_iff.mpr (by decide)⟩

/-- Scattered entries make the same grammar when they are put together.  With a terminal before them, given
once or twice, they are refused alike, and grouped productions report it once. -/
theorem ofRules_regrouped_scatteredEntries :
    (Regroups scatteredEntries gatheredEntries ∧
      ∃ g g', ofRules (.nonterminal "S") scatteredEntries = .ok g ∧
        ofRules (.nonterminal "S") gatheredEntries = .ok g' ∧
        g.names = ["S", "A"] ∧ g'.names = ["A", "S"] ∧ g.Same g') ∧
    (∃ malformed malformed',
      ofRules (.nonterminal "S") ((.terminal "t", []) :: scatteredEntries) = .error malformed ∧
      ofRules (.nonterminal "S") ((.terminal "t", [[]]) :: (.terminal "t", []) :: gatheredEntries) =
        .error malformed' ∧
      malformed'.problems = [.terminalLeftHandSide "t", .terminalLeftHandSide "t"] ∧
      AgreeUpToLefts malformed.problems malformed'.problems) ∧
    ∃ malformed, ofProductions (.nonterminal "S")
        [⟨.terminal "t", []⟩, ⟨.nonterminal "A", [.nonterminal "S"]⟩, ⟨.terminal "t", []⟩] =
          .error malformed ∧
      malformed.problems = [.terminalLeftHandSide "t", .missingStart "S", .undefinedNonterminal "S"] := by
  obtain ⟨hregrouped, hproductions⟩ := ofRules_regrouped (.nonterminal "S")
  have hregroups := regroups_scatteredEntries
  refine ⟨⟨hregroups, ?_⟩, ?_, ?_⟩
  · obtain ⟨hiff, hsame, -⟩ := hregrouped _ _ hregroups
    have hnone : problems (.nonterminal "S") scatteredEntries = [] := by
      rw [problems, definitionProblems_eq_nil_iff.mpr (by decide)]
      rfl
    have hg : ofRules (.nonterminal "S") scatteredEntries = .ok ⟨"S", gather scatteredEntries⟩ :=
      ofRules_eq_ok_iff.mpr ⟨hnone, rfl⟩
    obtain ⟨g', hg'⟩ := hiff.mp ⟨_, hg⟩
    refine ⟨_, g', hg, hg', by decide, ?_, hsame _ _ hg hg'⟩
    rw [(ofRules_eq_ok_iff.mp hg').2]
    decide
  · obtain ⟨-, -, hagree⟩ := hregrouped _ _ (hregroups.cons_terminals "t" [] [[]] [])
    have hm : ofRules (.nonterminal "S") ((.terminal "t", []) :: scatteredEntries) = .error ⟨_⟩ :=
      ofRules_eq_error (List.cons_ne_nil _ _)
    have hm' : ofRules (.nonterminal "S")
        ((.terminal "t", [[]]) :: (.terminal "t", []) :: gatheredEntries) = .error ⟨_⟩ :=
      ofRules_eq_error (List.cons_ne_nil _ _)
    refine ⟨_, _, hm, hm', ?_, hagree _ _ hm hm'⟩
    rw [problems, definitionProblems_eq_nil_iff.mpr (by decide)]
    rfl
  · refine ⟨⟨_⟩, ((hproductions _).2 _).mpr ⟨_, ofRules_eq_error (List.cons_ne_nil _ _), ?_⟩, rfl⟩
    rw [problems, definitionProblems, List.mergeSort_of_pairwise (by decide)]
    exact firstOccurrences_iff.mpr (by decide)

end Grammar

end ParseForest
