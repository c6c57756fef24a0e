import Mathlib.Data.List.Induction
import Mathlib.Data.List.Nodup
import ParseForest.Proofs.Grammar.Rebuild

/-! # A grammar is built from its productions

Productions are grouped one after the other: each joins the entry of its left-hand side, which is looked for
from the front, or starts a new entry at the end (`groupProductions_eq_foldl`).  While the productions of one
entry pass, that entry is the last one and fills up (`foldl_addProduction_entry`), so entries with different
left-hand sides that are taken apart into productions are put together again
(`groupProductions_flatMap`), and a grammar is built from its productions in whatever order its rules are
listed. -/

namespace ParseForest.Grammar

/-- One more production joins the first entry of its left-hand side, or starts an entry at the end. -/
def addProduction : List RuleEntry → Production → List RuleEntry
  | [], production => [(production.lhs, [production.rhs])]
  | entry :: entries, production =>
    if entry.1 = production.lhs then (entry.1, entry.2 ++ [production.rhs]) :: entries
    else entry :: addProduction entries production

variable {entries : List RuleEntry} {production : Production}

/-! ### Adding one production -/

theorem addProduction_append (h : production.lhs ∉ entries.map Prod.fst) (more : List RuleEntry) :
    addProduction (entries ++ more) production = entries ++ addProduction more production := by
  induction entries with
  | nil => rfl
  | cons entry entries ih =>
      rw [List.map_cons, List.mem_cons, not_or] at h
      obtain ⟨hentry, hentries⟩ := h
      rw [List.cons_append, addProduction, if_neg (Ne.symm hentry), ih hentries, List.cons_append]

theorem addProduction_of_not_mem (h : production.lhs ∉ entries.map Prod.fst) :
    addProduction entries production = entries ++ [(production.lhs, [production.rhs])] := by
  have happend := addProduction_append h []
  rw [List.append_nil] at happend
  exact happend

theorem addProduction_map {lefts : List Symbol} (hn : lefts.Nodup) (h : production.lhs ∈ lefts)
    (rights : Symbol → List Alternative) :
    addProduction (lefts.map fun lhs => (lhs, rights lhs)) production =
      lefts.map fun lhs =>
        (lhs, rights lhs ++ if production.lhs = lhs then [production.rhs] else []) := by
  induction lefts with
  | nil => exact absurd h List.not_mem_nil
  | cons lhs lefts ih =>
      obtain ⟨hlhs, hlefts⟩ := List.nodup_cons.mp hn
      rw [List.map_cons, List.map_cons, addProduction]
      by_cases hfirst : lhs = production.lhs
      · have hothers : ∀ other ∈ lefts, (other, rights other) =
            (other, rights other ++ if production.lhs = other then [production.rhs] else []) := by
          intro other hother
          have hne : production.lhs ≠ other := by
            rintro rfl
            exact hlhs (hfirst ▸ hother)
          rw [if_neg hne, List.append_nil]
        rw [if_pos hfirst, if_pos hfirst.symm, List.map_congr_left hothers]
      · have hmem : production.lhs ∈ lefts := (List.mem_cons.mp h).resolve_left (Ne.symm hfirst)
        rw [if_neg hfirst, if_neg (Ne.symm hfirst), List.append_nil, ih hlefts hmem]

/-! ### Grouping productions -/

theorem lefts_groupProductions (productions : List Production) :
    (groupProductions productions).map Prod.fst = (productions.map Production.lhs).eraseDups := by
  unfold groupProductions
  rw [List.map_map]
  exact List.map_id _

theorem rights_concat (productions : List Production) (production : Production) (lhs : Symbol) :
    ((productions ++ [production]).filter fun other => other.lhs = lhs).map Production.rhs =
      (productions.filter fun other => other.lhs = lhs).map Production.rhs ++
        if production.lhs = lhs then [production.rhs] else [] := by
  rw [List.filter_append, List.map_append, List.filter_cons]
  simp only [decide_eq_true_eq, List.filter_nil]
  split
  · rfl
  · rfl

/-- **One step of grouping.** -/
theorem groupProductions_concat (productions : List Production) (production : Production) :
    groupProductions (productions ++ [production]) =
      addProduction (groupProductions productions) production := by
  by_cases h : production.lhs ∈ productions.map Production.lhs
  · unfold groupProductions
    simp only [rights_concat]
    rw [List.map_append, List.map_singleton, eraseDups_concat, if_pos h,
      addProduction_map (nodup_eraseDups _) (List.mem_eraseDups.mpr h)]
  · have hnew : production.lhs ∉ (groupProductions productions).map Prod.fst := by
      rw [lefts_groupProductions, List.mem_eraseDups]
      exact h
    have hothers : ∀ lhs ∈ (productions.map Production.lhs).eraseDups, production.lhs ≠ lhs := by
      rintro _ hmem rfl
      exact h (List.mem_eraseDups.mp hmem)
    have hnone : (productions.filter fun other => other.lhs = production.lhs) = [] := by
      refine List.filter_eq_nil_iff.mpr fun other hother hlhs => h ?_
      exact List.mem_map.mpr ⟨other, hother, of_decide_eq_true hlhs⟩
    rw [addProduction_of_not_mem hnew]
    unfold groupProductions
    simp only [rights_concat]
    rw [List.map_append, List.map_singleton, eraseDups_concat, if_neg h, List.map_append,
      List.map_singleton, hnone, if_pos rfl]
    congr 1
    refine List.map_congr_left fun lhs hlhs => ?_
    rw [if_neg (hothers lhs hlhs), List.append_nil]

theorem groupProductions_eq_foldl (productions : List Production) :
    groupProductions productions = productions.foldl addProduction [] := by
  induction productions using List.reverseRecOn with
  | nil => rfl
  | append_singleton productions production ih =>
      rw [groupProductions_concat, ih, List.foldl_append, List.foldl_cons, List.foldl_nil]

/-! ### Entries taken apart -/

/-- The productions of an entry. -/
def entryProductions (entry : RuleEntry) : List Production :=
  entry.2.map fun alternative => ⟨entry.1, alternative⟩

/-- While its productions pass, the entry of a new left-hand side is the last one and fills up. -/
theorem foldl_addProduction_last {lhs : Symbol} (h : lhs ∉ entries.map Prod.fst)
    (before alternatives : List Alternative) :
    (entryProductions (lhs, alternatives)).foldl addProduction (entries ++ [(lhs, before)]) =
      entries ++ [(lhs, before ++ alternatives)] := by
  induction alternatives generalizing before with
  | nil => rw [List.append_nil]; rfl
  | cons alternative alternatives ih =>
      have hstep : addProduction (entries ++ [(lhs, before)]) ⟨lhs, alternative⟩ =
          entries ++ [(lhs, before ++ [alternative])] := by
        rw [addProduction_append h, addProduction, if_pos rfl]
      have hrest := ih (before ++ [alternative])
      rw [List.append_assoc, List.singleton_append, ← hstep] at hrest
      exact hrest

theorem foldl_addProduction_entry {entry : RuleEntry} (h : entry.1 ∉ entries.map Prod.fst)
    (hne : entry.2 ≠ []) :
    (entryProductions entry).foldl addProduction entries = entries ++ [entry] := by
  obtain ⟨lhs, alternatives⟩ := entry
  cases alternatives with
  | nil => exact absurd rfl hne
  | cons alternative alternatives =>
      have hfirst : addProduction entries ⟨lhs, alternative⟩ = entries ++ [(lhs, [alternative])] :=
        addProduction_of_not_mem h
      have hlast := foldl_addProduction_last h [alternative] alternatives
      rw [List.singleton_append, ← hfirst] at hlast
      exact hlast

theorem foldl_addProduction_flatMap {before : List RuleEntry}
    (hn : ((before ++ entries).map Prod.fst).Nodup) (hne : ∀ entry ∈ entries, entry.2 ≠ []) :
    (entries.flatMap entryProductions).foldl addProduction before = before ++ entries := by
  induction entries generalizing before with
  | nil => rw [List.append_nil]; rfl
  | cons entry entries ih =>
      obtain ⟨hentry, hentries⟩ := List.forall_mem_cons.mp hne
      have hnew : entry.1 ∉ before.map Prod.fst := by
        intro hmem
        rw [List.map_append, List.nodup_append] at hn
        exact hn.2.2 _ hmem _ List.mem_cons_self rfl
      have hassoc : before ++ entry :: entries = before ++ [entry] ++ entries := by
        rw [List.append_assoc, List.singleton_append]
      rw [hassoc] at hn
      rw [List.flatMap_cons, List.foldl_append, foldl_addProduction_entry hnew hentry, ih hn hentries,
        hassoc]

/-- **Entries taken apart into productions are put together again.** -/
theorem groupProductions_flatMap (hn : (entries.map Prod.fst).Nodup)
    (hne : ∀ entry ∈ entries, entry.2 ≠ []) :
    groupProductions (entries.flatMap entryProductions) = entries := by
  rw [groupProductions_eq_foldl]
  exact foldl_addProduction_flatMap hn hne

/-! ### Rebuilding -/

theorem productions_eq (g : Grammar) :
    g.productions = (g.rules.map Rule.entry).flatMap entryProductions := by
  unfold productions
  rw [List.flatMap_map]
  rfl

theorem nodup_lefts_entries {g : Grammar} (hn : g.names.Nodup) :
    ((g.rules.map Rule.entry).map Prod.fst).Nodup := by
  have hlefts : (g.rules.map Rule.entry).map Prod.fst = g.names.map Symbol.nonterminal := by
    unfold names
    rw [List.map_map, List.map_map]
    rfl
  rw [hlefts]
  exact hn.map fun _ _ => Symbol.nonterminal.inj

theorem ofProductions_of_wellFormed {g : Grammar} (hg : g.WellFormed) :
    ofProductions (.nonterminal g.start) g.productions = .ok g := by
  unfold ofProductions
  rw [productions_eq, groupProductions_flatMap (nodup_lefts_entries hg.names_nodup),
    ofRules_entries hg]
  rw [List.forall_mem_map]
  exact hg.alternatives_ne_nil

/-- **A grammar is built from its productions.**  The productions of a grammar that can be made, listed with
its rules in any order, make a grammar again: with the rules in that order, so the same. -/
theorem ofProductions_productions (g : Grammar) (hg : Constructed g) (rules : List Rule)
    (hp : rules.Perm g.rules) :
    ofProductions (.nonterminal g.start) ({ g with rules } : Grammar).productions =
        .ok { g with rules } ∧
      Same { g with rules } g :=
  ⟨ofProductions_of_wellFormed (hg.wellFormed.of_perm hp),
    same_of_perm hg.wellFormed.names_nodup hp⟩

/-- The arithmetic grammar for terms alone, from its productions with the rules listed the other way round. -/
theorem ofProductions_arithmetic_terms :
    ∃ terms : Grammar, Arithmetic.grammar.withStart "T" = .ok terms ∧
      terms.rules.reverse.Perm terms.rules ∧
      ∃ rebuilt, ofProductions (.nonterminal terms.start)
          ({ terms with rules := terms.rules.reverse } : Grammar).productions = .ok rebuilt ∧
        rebuilt.names = ["F", "T", "E"] ∧ rebuilt.Same terms := by
  have hterms : Arithmetic.grammar.withStart "T" = .ok { Arithmetic.grammar with start := "T" } :=
    withStart_eq_ok (by decide)
  have hp := List.reverse_perm Arithmetic.grammar.rules
  obtain ⟨hrebuilt, hsame⟩ :=
    ofProductions_productions _ (.withStart .arithmetic hterms) Arithmetic.grammar.rules.reverse hp
  exact ⟨_, hterms, hp, _, hrebuilt, by decide, hsame⟩

end ParseForest.Grammar
