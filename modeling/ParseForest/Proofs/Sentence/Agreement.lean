import ParseForest.Proofs.Chart.Agreement
import ParseForest.Proofs.Sentence.Grow

/-! # Generators of grammars that agree

Heights are found by sweeps over all the rules, in their order, but the heights in the end are those of
least derivation trees.  So where two grammars agree on some nonterminals, these have the same
heights (`ofSymbol_heights_agree`), each choice is made among the same candidates
(`candidates_agree`), and one and the same tree is grown with the same draws (`grow_agree`). -/

namespace ParseForest

variable {g h : Grammar} {names : Set String}

/-! ### The same heights -/

namespace Grammar

theorem AgreeOn.derivationTrees_eq (ha : g.AgreeOn names h) {symbol : Symbol}
    (hsymbol : symbol.Within names) : g.derivationTrees symbol = h.derivationTrees symbol := by
  ext t
  exact and_congr_right fun hroot => ha.derives_iff (hroot ▸ hsymbol)

theorem ofSymbol_heights_agree (ha : g.AgreeOn names h) (hg : g.names.Nodup) (hh : h.names.Nodup)
    {symbol : Symbol} (hsymbol : symbol.Within names) :
    g.heights.ofSymbol symbol = h.heights.ofSymbol symbol := by
  cases symbol with
  | terminal text => rfl
  | nonterminal name =>
      refine Option.ext fun height => ?_
      show g.heights.lookup name = some height ↔ h.heights.lookup name = some height
      rw [lookup_heights_iff hg, lookup_heights_iff hh]
      unfold LeastHeight
      rw [ha.derivationTrees_eq hsymbol]

end Grammar

theorem Heights.deepest_congr {known known' : Heights} {symbols : List Symbol}
    (hsymbols : ∀ symbol ∈ symbols, known.ofSymbol symbol = known'.ofSymbol symbol) :
    known.deepest symbols = known'.deepest symbols := by
  induction symbols with
  | nil => rfl
  | cons symbol symbols ih =>
      obtain ⟨hsymbol, hrest⟩ := List.forall_mem_cons.mp hsymbols
      rw [deepest, deepest, hsymbol, ih hrest]

/-! ### The same choices -/

namespace Sentence

open Generator

theorem candidates_congr {heights heights' : Heights} {alternatives : List Alternative}
    (hsame : ∀ alternative ∈ alternatives,
      heights.ofAlternative alternative = heights'.ofAlternative alternative) (budget : Nat) :
    candidates heights alternatives budget = candidates heights' alternatives budget := by
  have hsized : sized heights alternatives = sized heights' alternatives := by
    refine List.filterMap_congr fun alternative hmem => ?_
    rw [hsame alternative hmem]
  rw [candidates_eq, candidates_eq, fitting, fitting, hsized]

theorem candidates_agree (ha : g.AgreeOn names h) (hg : g.names.Nodup) (hh : h.names.Nodup)
    {name : String} (hname : name ∈ names) (budget : Nat) :
    candidates g.heights (g.alternatives name) budget =
      candidates h.heights (g.alternatives name) budget := by
  refine candidates_congr (fun alternative hexpands => ?_) budget
  unfold Heights.ofAlternative
  rw [Heights.deepest_congr fun symbol hmem =>
    Grammar.ofSymbol_heights_agree ha hg hh (ha.closed name hname alternative hexpands symbol hmem)]

theorem mem_of_mem_candidates {heights : Heights} {alternatives : List Alternative} {budget : Nat}
    {alternative : Alternative} (hmem : alternative ∈ candidates heights alternatives budget) :
    alternative ∈ alternatives := by
  cases hleast : heights.least alternatives with
  | none =>
      rw [candidates_eq_nil hleast] at hmem
      exact absurd hmem List.not_mem_nil
  | some least => exact ((mem_candidates_iff hleast).mp hmem).1

/-- One level: the same choice, and below it the same trees by what is known of them. -/
theorem grow_agree (ha : g.AgreeOn names h) (hg : g.names.Nodup) (hh : h.names.Nodup)
    (levels budget : Nat) {symbol : Symbol} (hsymbol : symbol.Within names) :
    grow g g.heights levels budget symbol = grow h h.heights levels budget symbol := by
  induction levels generalizing budget symbol with
  | zero => cases symbol <;> rfl
  | succ levels ih =>
      cases symbol with
      | terminal text => rfl
      | nonterminal name =>
          have hname := Symbol.within_nonterminal.mp hsymbol
          have hsame := ha.alternatives?_eq name hname
          have hcandidates := candidates_agree ha hg hh hname budget
          cases hrule : g.alternatives? name with
          | none => simp only [grow, ← hsame, hrule]
          | some alternatives =>
              have halternatives : g.alternatives name = alternatives := by
                rw [Grammar.alternatives, hrule, Option.getD_some]
              rw [halternatives] at hcandidates
              simp only [grow, ← hsame, hrule, ← hcandidates]
              refine choose_bind_congr fun alternative hmem => ?_
              have hexpands : g.Expands name alternative := by
                unfold Grammar.Expands
                exact halternatives ▸ mem_of_mem_candidates hmem
              have hwithin := ha.closed name hname alternative hexpands
              rw [mapM_congr fun child hchild => ih (budget - 1) (hwithin child hchild)]

end Sentence

namespace Grammar

theorem grow_agree (ha : g.AgreeOn names h) (hg : g.names.Nodup) (hh : h.names.Nodup)
    {name : String} (hname : name ∈ names) (depth : Nat) : g.grow name depth = h.grow name depth := by
  have hsymbol : (Symbol.nonterminal name).Within names := Symbol.within_nonterminal.mpr hname
  have hlookup : g.heights.lookup name = h.heights.lookup name := ofSymbol_heights_agree ha hg hh hsymbol
  rw [grow_eq, grow_eq, Sentence.levels, Sentence.levels, hlookup]
  exact Sentence.grow_agree ha hg hh _ _ hsymbol

theorem generateFrom_agree (ha : g.AgreeOn names h) (hg : g.names.Nodup) (hh : h.names.Nodup)
    {name : String} (hname : name ∈ names) (depth : Nat) (source : Source) :
    g.generateFrom name depth source = h.generateFrom name depth source := by
  rw [generateFrom, generateFrom, grow_agree ha hg hh hname]

/-- **Only reachable rules matter.**  Two grammars with the same start symbol that have the same
alternatives for every reachable nonterminal accept the same inputs, with the same forest and the same
parses from either side, and from every source they generate the same sentence or fail alike, with
the same words taken. -/
theorem reachable_rules_determine (g h : Grammar) (hg : g.WellFormed) (hh : h.WellFormed)
    (hstart : g.start = h.start)
    (hreachable : ∀ name, g.Reachable name → g.alternatives? name = h.alternatives? name) :
    (∀ tokens : List String,
      (Chart.build g tokens).accepts = (Chart.build h tokens).accepts ∧
      (Chart.build g tokens).trees = (Chart.build h tokens).trees ∧
      ∀ direction : Direction, parse g tokens direction = parse h tokens direction) ∧
    ∀ (depth : Nat) (source : Source), g.generate depth source = h.generate depth source := by
  have ha := agreeOn_reachable hreachable
  have hname : g.start ∈ {name | g.Reachable name} := Reachable.start
  refine ⟨fun tokens => ⟨?_, ?_, fun direction => ?_⟩, fun depth source => ?_⟩
  · exact Chart.accepts_agree ha hg hh hstart hname tokens
  · exact Chart.trees_agree ha hg hh hstart hname tokens
  · unfold parse
    rw [Chart.trees_agree ha hg hh hstart hname tokens]
  · unfold generate
    rw [← hstart]
    exact generateFrom_agree ha hg.names_nodup hh.names_nodup hname depth source

/-- The nonterminal that cannot be reached is made productive by a rule in front of the others, and by
another one that derives the same as the start symbol. -/
def extendedGrammar : Grammar :=
  { start := "S"
    rules := [⟨"U", [[.terminal "u"], [.nonterminal "V"]]⟩,
      ⟨"V", [[.nonterminal "S"], [.nonterminal "V", .nonterminal "U"]]⟩] ++
        Chart.loopGrammar.rules.take 2 }

theorem mem_of_reachable_loopGrammar {name : String} (hr : Chart.loopGrammar.Reachable name) :
    name ∈ ["S", "A"] := by
  induction hr with
  | start => decide
  | @step name child alternative _ hexpands hchild ih =>
      have hclosed : ∀ name ∈ ["S", "A"], ∀ alternative ∈ Chart.loopGrammar.alternatives name,
          ∀ child ∈ alternative.filterMap Symbol.nonterminal?, child ∈ ["S", "A"] := by decide
      exact hclosed name ih alternative hexpands child (List.mem_filterMap.mpr ⟨_, hchild, rfl⟩)

/-- Neither the parses of three tokens nor the sentence generated from a tape tell the grammars apart. -/
theorem reachable_rules_determine_loopGrammar :
    Chart.loopGrammar.WellFormed ∧ extendedGrammar.WellFormed ∧
      ¬Chart.loopGrammar.Reachable "U" ∧
      Chart.loopGrammar.alternatives? "U" ≠ extendedGrammar.alternatives? "U" ∧
      parse Chart.loopGrammar ["a", "a", "a"] .rightmost =
        parse extendedGrammar ["a", "a", "a"] .rightmost ∧
      Chart.loopGrammar.generate 3 (.ofTape [5, 6, 7]) = extendedGrammar.generate 3 (.ofTape [5, 6, 7]) := by
  have hg : Chart.loopGrammar.WellFormed := by decide
  have hh : extendedGrammar.WellFormed := by decide
  have hkept : ∀ name ∈ ["S", "A"],
      Chart.loopGrammar.alternatives? name = extendedGrammar.alternatives? name := by decide
  have h := reachable_rules_determine Chart.loopGrammar extendedGrammar hg hh rfl
    fun name hr => hkept name (mem_of_reachable_loopGrammar hr)
  refine ⟨hg, hh, fun hr => ?_, by decide, (h.1 ["a", "a", "a"]).2.2 .rightmost, h.2 3 _⟩
  exact absurd (mem_of_reachable_loopGrammar hr) (by decide)

end Grammar

end ParseForest
