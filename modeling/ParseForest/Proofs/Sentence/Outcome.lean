import ParseForest.Proofs.Sentence.Grow

/-! # How a generation ends

Whether a sentence is generated is settled at the root.  A nonterminal is barren for one of two reasons:
it has no rule, or no derivation tree (`Grammar.Barren`).  From a barren nonterminal the generation fails
for that reason, with the source as it was (`generateFrom_of_barren`).  From any other one the leaves of
a derivation tree are generated (`exists_generated`): the choice at a node leaves out the alternatives
with a barren symbol, so none is met on the way down.

So the depth and the source decide which sentence is generated, but not whether there is one
(`generateFrom_error_iff`). -/

namespace ParseForest.Grammar

variable {g : Grammar} {name : String} {error : GenerationError}

theorem generateFrom_eq (g : Grammar) (name : String) (depth : Nat) (source : Source) :
    g.generateFrom name depth source =
      (((g.grow name depth).run.run source).1.map Tree.leaves,
        ((g.grow name depth).run.run source).2) := by
  unfold generateFrom
  rw [Generator.run_map]

/-! ### Sentences -/

/-- From a nonterminal with a derivation tree, the leaves of some tree are generated, which is no higher
than the depth or than the least tree. -/
theorem exists_generated {least : Nat} (hn : g.names.Nodup)
    (hleast : g.LeastHeight (.nonterminal name) least) (depth : Nat) (source : Source) :
    ∃ t ∈ g.derivationTrees (.nonterminal name), t.height ≤ max depth least ∧
      (g.generateFrom name depth source).1 = .ok t.leaves := by
  obtain ⟨t, rest, hrun, ht, hheight⟩ := g.grow_always hn hleast depth source
  refine ⟨t, ht, hheight, ?_⟩
  rw [generateFrom_eq, hrun]
  rfl

/-! ### Failures -/

/-- Why no sentence can be generated from a nonterminal. -/
inductive Barren (g : Grammar) : String → GenerationError → Prop
  | undefined {name : String} : name ∉ g.names → Barren g name (.undefinedNonterminal name)
  | unproductive {name : String} :
      name ∈ g.names → g.derivationTrees (.nonterminal name) = ∅ → Barren g name (.unproductive name)

theorem barren_or_nonempty (g : Grammar) (name : String) :
    (∃ error, g.Barren name error) ∨ (g.derivationTrees (.nonterminal name)).Nonempty := by
  rcases Set.eq_empty_or_nonempty (g.derivationTrees (.nonterminal name)) with hnone | hsome
  · by_cases hname : name ∈ g.names
    · exact Or.inl ⟨_, .unproductive hname hnone⟩
    · exact Or.inl ⟨_, .undefined hname⟩
  · exact Or.inr hsome

theorem generateFrom_of_barren (hn : g.names.Nodup) (h : g.Barren name error) (depth : Nat)
    (source : Source) : g.generateFrom name depth source = (.error error, source) := by
  cases h with
  | undefined hname =>
      rw [generateFrom_eq, run_grow_undefined hn hname]
      rfl
  | unproductive hname hnone =>
      have hleast : ∀ least, ¬g.LeastHeight (.nonterminal name) least := by
        intro least hleast
        have hsome := nonempty_derivationTrees_iff.mpr ⟨least, hleast⟩
        exact hsome.ne_empty hnone
      rw [generateFrom_eq, run_grow_unproductive hn hname hleast]
      rfl

theorem generateFrom_ok_iff (hn : g.names.Nodup) {depth : Nat} {source : Source} :
    (∃ sentence, (g.generateFrom name depth source).1 = .ok sentence) ↔
      (g.derivationTrees (.nonterminal name)).Nonempty := by
  constructor
  · rintro ⟨sentence, hsentence⟩
    rcases barren_or_nonempty g name with ⟨error, hbarren⟩ | hsome
    · rw [generateFrom_of_barren hn hbarren] at hsentence
      exact nomatch hsentence
    · exact hsome
  · intro hsome
    obtain ⟨least, hleast⟩ := nonempty_derivationTrees_iff.mp hsome
    obtain ⟨t, -, -, hleaves⟩ := exists_generated hn hleast depth source
    exact ⟨t.leaves, hleaves⟩

theorem generateFrom_error_iff (hn : g.names.Nodup) {depth : Nat} {source : Source} :
    (g.generateFrom name depth source).1 = .error error ↔ g.Barren name error := by
  constructor
  · intro herror
    rcases barren_or_nonempty g name with ⟨reason, hbarren⟩ | hsome
    · rw [generateFrom_of_barren hn hbarren] at herror
      exact Except.error.inj herror ▸ hbarren
    · obtain ⟨sentence, hsentence⟩ := (generateFrom_ok_iff hn).mpr hsome
      exact nomatch herror.symm.trans hsentence
  · intro hbarren
    rw [generateFrom_of_barren hn hbarren]

/-- **A generation fails for want of a rule or of a derivation tree.**  It fails so exactly when the
nonterminal asked for has no rule, or has one but no derivation tree, and else a sentence is generated.
The failure names that nonterminal and no other one, whatever alternatives there are below it, and the
source is left as it was. -/
theorem generateFrom_fails_exactly (g : Grammar) (hg : g.WellFormed) (name : String) (depth : Nat)
    (source : Source) :
    ((g.generateFrom name depth source).1 = .error (.undefinedNonterminal name) ↔ name ∉ g.names) ∧
    ((g.generateFrom name depth source).1 = .error (.unproductive name) ↔
      name ∈ g.names ∧ g.derivationTrees (.nonterminal name) = ∅) ∧
    ((∃ sentence, (g.generateFrom name depth source).1 = .ok sentence) ↔
      name ∈ g.names ∧ (g.derivationTrees (.nonterminal name)).Nonempty) ∧
    ∀ error, (g.generateFrom name depth source).1 = .error error →
      (error = .undefinedNonterminal name ∨ error = .unproductive name) ∧
        (g.generateFrom name depth source).2 = source := by
  simp only [generateFrom_error_iff hg.names_nodup, generateFrom_ok_iff hg.names_nodup]
  refine ⟨⟨?_, .undefined⟩, ⟨?_, ?_⟩, ⟨?_, And.right⟩, fun error hbarren => ?_⟩
  · rintro (hname | _)
    exact hname
  · rintro (_ | ⟨hname, hnone⟩)
    exact ⟨hname, hnone⟩
  · rintro ⟨hname, hnone⟩
    exact .unproductive hname hnone
  · -- a nonterminal without a rule has no derivation tree
    intro hsome
    obtain ⟨least, hleast⟩ := nonempty_derivationTrees_iff.mp hsome
    exact ⟨hleast.mem_names, hsome⟩
  · rw [generateFrom_of_barren hg.names_nodup hbarren]
    cases hbarren with
    | undefined => exact ⟨Or.inl rfl, rfl⟩
    | unproductive => exact ⟨Or.inr rfl, rfl⟩

/-- Sentences are runs of `a`, and at every turn there is a way to the nonterminal `U`, which has none. -/
def trapGrammar : Grammar :=
  ⟨"S", [⟨"S", [[.nonterminal "U", .terminal "x"], [.nonterminal "A", .nonterminal "S"],
      [.nonterminal "A"]]⟩,
    ⟨"A", [[.nonterminal "U"], [.terminal "a"]]⟩,
    ⟨"U", [[.nonterminal "U", .terminal "u"], [.nonterminal "A", .nonterminal "U"]]⟩]⟩

/-- No source leads from the start symbol into the trap. -/
theorem generateFrom_fails_exactly_trapGrammar :
    trapGrammar.WellFormed ∧ ∀ depth source,
      (trapGrammar.generateFrom "X" depth source).1 = .error (.undefinedNonterminal "X") ∧
      (trapGrammar.generateFrom "U" depth source).1 = .error (.unproductive "U") ∧
      (trapGrammar.generateFrom "U" depth source).2 = source ∧
      ∃ sentence, (trapGrammar.generateFrom "S" depth source).1 = .ok sentence := by
  have hg : trapGrammar.WellFormed := by decide
  have htrap : trapGrammar.derivationTrees (.nonterminal "U") = ∅ := by
    have hlookup : trapGrammar.heights.lookup "U" = none := by decide
    rw [← Set.not_nonempty_iff_eq_empty, nonempty_derivationTrees_iff]
    rintro ⟨least, hleast⟩
    rw [(lookup_heights_iff hg.names_nodup).mpr hleast] at hlookup
    exact nomatch hlookup
  have htwo : trapGrammar.LeastHeight (.nonterminal "S") 2 :=
    (lookup_heights_iff hg.names_nodup).mp (by decide)
  refine ⟨hg, fun depth source => ?_⟩
  have hundefined := generateFrom_fails_exactly trapGrammar hg "X" depth source
  have hfails := generateFrom_fails_exactly trapGrammar hg "U" depth source
  have hruns := generateFrom_fails_exactly trapGrammar hg "S" depth source
  have hunproductive := hfails.2.1.mpr ⟨by decide, htrap⟩
  refine ⟨hundefined.1.mpr (by decide), hunproductive, (hfails.2.2.2 _ hunproductive).2, ?_⟩
  exact hruns.2.2.1.mpr ⟨by decide, nonempty_derivationTrees_iff.mpr ⟨2, htwo⟩⟩

end ParseForest.Grammar
