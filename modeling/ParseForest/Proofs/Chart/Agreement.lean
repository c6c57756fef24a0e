import ParseForest.Proofs.Chart.Acceptance
import ParseForest.Proofs.Chart.Order
import ParseForest.Proofs.Grammar.Agreement

/-! # Charts of grammars that agree

A chart is filled by sweeps over all the rules, in their order, but what it holds for a nonterminal is
fixed by the derivations from it.  So where two grammars agree on some nonterminals, these fit the
same parts (`fits_agree`) and have the same expansions (`expansions_agree`) in both charts, and with
such a start symbol the forests are the same list (`trees_agree`), though the bounds on the height
count different rules. -/

namespace ParseForest

variable {g h : Grammar} {names : Set String} {tokens : List String}

theorem Grammar.AgreeOn.derivesOver_iff (ha : g.AgreeOn names h) {symbol : Symbol} {span : Span}
    (hsymbol : symbol.Within names) :
    g.DerivesOver tokens symbol span ↔ h.DerivesOver tokens symbol span := by
  rw [Grammar.derivesOver_iff, Grammar.derivesOver_iff]
  refine and_congr_right fun _ => exists_congr fun t => and_congr_right fun hroot => ?_
  rw [ha.derivesProperly_iff (hroot ▸ hsymbol)]

namespace Chart

theorem fits_agree (ha : g.AgreeOn names h) (hg : g.names.Nodup) (hh : h.names.Nodup)
    {symbol : Symbol} (hsymbol : symbol.Within names) (part : Span) :
    (build g tokens).fits symbol part = (build h tokens).fits symbol part := by
  rw [Bool.eq_iff_iff, fits_iff hg, fits_iff hh, ha.derivesOver_iff hsymbol]

theorem expansions_agree (ha : g.AgreeOn names h) (hg : g.names.Nodup) (hh : h.names.Nodup)
    {name : String} (hname : name ∈ names) (span : Span) :
    (build g tokens).expansions name span = (build h tokens).expansions name span := by
  rw [expansions_build hg, expansions_build hh, ← ha.alternatives_eq hname]
  unfold expansionsBy
  refine List.flatMap_congr fun ⟨alternative, place⟩ hplace => ?_
  have hexpands := List.mem_of_getElem? (List.mem_zipIdx_iff_getElem?.mp hplace)
  congr 1
  exact splits_congr fun symbol hmem part _ =>
    fits_agree ha hg hh (ha.closed name hname alternative hexpands symbol hmem) part

theorem exists_alternative_of_mem_parts {c : Chart} {name : String} {expansion : Expansion}
    {part : Symbol × Span} (h : part ∈ c.parts name expansion) :
    ∃ alternative ∈ c.grammar.alternatives name, part.1 ∈ alternative := by
  unfold parts at h
  have hsymbol := (List.of_mem_zip (show (part.1, part.2) ∈ _ from h)).1
  cases hplace : (c.grammar.alternatives name)[expansion.alternative]? with
  | none =>
      rw [hplace] at hsymbol
      exact absurd hsymbol List.not_mem_nil
  | some alternative =>
      rw [hplace] at hsymbol
      exact ⟨alternative, List.mem_of_getElem? hplace, hsymbol⟩

theorem treesWithin_agree (ha : g.AgreeOn names h) (hg : g.names.Nodup) (hh : h.names.Nodup)
    (height : Nat) (path : List (String × Span)) {name : String} (hname : name ∈ names)
    (span : Span) :
    (build g tokens).treesWithin height path name span =
      (build h tokens).treesWithin height path name span := by
  induction height generalizing path name span with
  | zero => rfl
  | succ height ih =>
      rw [treesWithin_succ, treesWithin_succ, expansions_agree ha hg hh hname]
      refine List.flatMap_congr fun expansion _ => ?_
      have hparts : (build g tokens).parts name expansion = (build h tokens).parts name expansion := by
        unfold parts
        show ((g.alternatives name)[_]?.getD []).zip _ = ((h.alternatives name)[_]?.getD []).zip _
        rw [ha.alternatives_eq hname]
      rw [← hparts]
      congr 2
      refine List.map_congr_left fun part hpart => ?_
      obtain ⟨alternative, hexpands, hsymbol⟩ := exists_alternative_of_mem_parts hpart
      have hwithin := ha.closed name hname alternative hexpands _ hsymbol
      obtain ⟨symbol, span⟩ := part
      cases symbol with
      | terminal text => rfl
      | nonterminal child =>
          simp only [choices]
          rw [ih _ (Symbol.within_nonterminal.mp hwithin)]

/-- The forests are the same, whatever bound on the height either grammar needs. -/
theorem trees_agree (ha : g.AgreeOn names h) (hg : g.WellFormed) (hh : h.WellFormed)
    (hstart : g.start = h.start) (hname : g.start ∈ names) (tokens : List String) :
    (build g tokens).trees = (build h tokens).trees := by
  by_cases hne : tokens = []
  · subst hne
    rw [trees_nil, trees_nil, ← hstart, ha.alternatives_eq hname]
  · have hleft := Nat.le_max_left (g.rules.length * tokens.length) (h.rules.length * tokens.length)
    have hright := Nat.le_max_right (g.rules.length * tokens.length) (h.rules.length * tokens.length)
    rw [← treesWithin_eq_trees hg hne hleft, ← treesWithin_eq_trees hh hne hright, ← hstart]
    exact treesWithin_agree ha hg.names_nodup hh.names_nodup _ _ hname _

theorem accepts_agree (ha : g.AgreeOn names h) (hg : g.WellFormed) (hh : h.WellFormed)
    (hstart : g.start = h.start) (hname : g.start ∈ names) (tokens : List String) :
    (build g tokens).accepts = (build h tokens).accepts := by
  rw [Bool.eq_iff_iff, accepts_iff_ne_nil hg.names_nodup, accepts_iff_ne_nil hh.names_nodup,
    trees_agree ha hg hh hstart hname]

end Chart

end ParseForest
