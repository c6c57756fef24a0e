import ParseForest.CommandLine.Run
import ParseForest.Proofs.Grammar.Invariant
import ParseForest.Proofs.GrammarText.Terminals
import ParseForest.Proofs.Sentence.Language

/-! # Runs that fail

A run fails for one of four reasons, none of which depends on the random words (`run_failed_iff`): the
grammar file is at fault, the start symbol has no rule, no sentence can be generated, or there are too
many tokens.  The first two and the last are found before anything is written.  Whether a sentence can
be generated depends on the grammar alone, so it is found at the first sentence or never
(`sample_of_unproductive`, `sampleLines_of_sentences`). -/

namespace ParseForest.CommandLine

variable {files : Files} {options : Options} {g base : Grammar} {messages : List String}

/-! ### The grammar -/

/-- The grammar before the start symbol is replaced. -/
inductive BaseGrammar (files : Files) (options : Options) : Grammar → Prop
  | builtIn : options.grammarFile = none → BaseGrammar files options Arithmetic.grammar
  | file {file : String} {g : Grammar} :
      options.grammarFile = some file → GrammarText.ofFile files file = .ok g →
      BaseGrammar files options g

/-- The messages about the faults of a grammar file. -/
def faultMessages (faults : List (Located Fault)) : List String :=
  faults.map fun located => Report.atLocation located.location located.fault.message

/-- The messages of a failure to load a grammar. -/
inductive LoadFails (files : Files) (options : Options) : List String → Prop
  | faults {file : String} {faults : List (Located Fault)} :
      options.grammarFile = some file → GrammarText.ofFile files file = .error faults →
      LoadFails files options (faultMessages faults)
  | start {base : Grammar} {start : String} :
      BaseGrammar files options base → options.start = some start → start ∉ base.names →
      LoadFails files options [Report.banner (Malformed.message ⟨[.missingStart start]⟩)]

/-- The grammar loaded from a base. -/
inductive Loads (files : Files) (options : Options) : Grammar → Prop
  | base {base : Grammar} :
      BaseGrammar files options base → options.start = none → Loads files options base
  | restarted {base : Grammar} {start : String} :
      BaseGrammar files options base → options.start = some start → start ∈ base.names →
      Loads files options { base with start }

theorem loadGrammar_of_base (hbase : BaseGrammar files options base) :
    loadGrammar files options =
      match options.start with
      | none => .ok base
      | some start =>
        match base.withStart start with
        | .ok restarted => .ok restarted
        | .error malformed => .error [Report.banner malformed.message] := by
  cases hbase with
  | builtIn hfile =>
      simp only [loadGrammar, hfile]
      rfl
  | file hfile hread =>
      simp only [loadGrammar, hfile, hread]
      rfl

theorem loadGrammar_of_loads (h : Loads files options g) : loadGrammar files options = .ok g := by
  cases h with
  | base hbase hstart => rw [loadGrammar_of_base hbase, hstart]
  | restarted hbase hstart hname =>
      simp only [loadGrammar_of_base hbase, hstart, Grammar.withStart_eq_ok hname]

theorem loadGrammar_of_loadFails (h : LoadFails files options messages) :
    loadGrammar files options = .error messages := by
  cases h with
  | faults hfile hfaults =>
      simp only [loadGrammar, hfile, hfaults]
      rfl
  | start hbase hstart hname =>
      simp only [loadGrammar_of_base hbase, hstart, Grammar.withStart_eq_error hname]

theorem loads_or_loadFails (files : Files) (options : Options) :
    (∃ g, Loads files options g) ∨ ∃ messages, LoadFails files options messages := by
  have hbase : (∃ base, BaseGrammar files options base) ∨
      ∃ messages, LoadFails files options messages := by
    cases hfile : options.grammarFile with
    | none => exact Or.inl ⟨_, .builtIn hfile⟩
    | some file =>
        cases hread : GrammarText.ofFile files file with
        | ok base => exact Or.inl ⟨base, .file hfile hread⟩
        | error faults => exact Or.inr ⟨_, .faults hfile hread⟩
  rcases hbase with ⟨base, hbase⟩ | hfails
  · cases hstart : options.start with
    | none => exact Or.inl ⟨base, .base hbase hstart⟩
    | some start =>
        by_cases hname : start ∈ base.names
        · exact Or.inl ⟨_, .restarted hbase hstart hname⟩
        · exact Or.inr ⟨_, .start hbase hstart hname⟩
  · exact Or.inr hfails

theorem loadGrammar_eq_ok_iff : loadGrammar files options = .ok g ↔ Loads files options g := by
  refine ⟨fun h => ?_, loadGrammar_of_loads⟩
  rcases loads_or_loadFails files options with ⟨loaded, hloads⟩ | ⟨messages, hfails⟩
  · rw [loadGrammar_of_loads hloads] at h
    exact Except.ok.inj h ▸ hloads
  · rw [loadGrammar_of_loadFails hfails] at h
    exact nomatch h

theorem BaseGrammar.wellFormed (h : BaseGrammar files options base) : base.WellFormed := by
  cases h with
  | builtIn => exact Grammar.wellFormed_arithmetic
  | file _ hread => exact Grammar.wellFormed_of_ofFile hread

theorem Loads.wellFormed (h : Loads files options g) : g.WellFormed := by
  cases h with
  | base hbase => exact hbase.wellFormed
  | restarted hbase _ hname => exact hbase.wellFormed.withStart hname

theorem Loads.feed_not_mem (h : Loads files options g) {content : String}
    (hmem : .terminal content ∈ g.rightHandSymbols) : '\n' ∉ content.toList := by
  have hbase : ∀ base, BaseGrammar files options base → .terminal content ∈ base.rightHandSymbols →
      '\n' ∉ content.toList := by
    intro base hbase hmem
    cases hbase with
    | builtIn =>
        have hnone : ∀ text ∈ Arithmetic.grammar.rightHandSymbols.filterMap Symbol.terminal?,
            '\n' ∉ text.toList := by decide
        exact hnone content (List.mem_filterMap.mpr ⟨_, hmem, rfl⟩)
    | file _ hread => exact GrammarText.feed_not_mem_of_ofFile hread hmem
  cases h with
  | base hbase' => exact hbase _ hbase' hmem
  | restarted hbase' => exact hbase _ hbase' hmem

theorem BaseGrammar.feed_not_mem_name (h : BaseGrammar files options base) {name : String}
    (hmem : name ∈ base.names) : '\n' ∉ name.toList := by
  cases h with
  | builtIn =>
      have hnone : ∀ name ∈ Arithmetic.grammar.names, '\n' ∉ name.toList := by decide
      exact hnone name hmem
  | file _ hread => exact GrammarText.feed_not_mem_name_of_ofFile hread hmem

theorem Loads.feed_not_mem_start (h : Loads files options g) : '\n' ∉ g.start.toList := by
  cases h with
  | base hbase => exact hbase.feed_not_mem_name hbase.wellFormed.start_mem
  | restarted hbase _ hname => exact hbase.feed_not_mem_name hname

/-! ### Sampling -/

theorem sampleLines_of_sentences {depth : Nat} {tapes : Nat → List Nat}
    {sentence : Nat → List String} (amount number : Nat)
    (h : ∀ i, (g.generate depth (.ofTape (tapes i))).1 = .ok (sentence i)) :
    sampleLines g depth tapes amount number =
      ((List.range' number amount).map fun i => Text.spaced (sentence i), none) := by
  induction amount generalizing number with
  | zero => rfl
  | succ amount ih =>
      simp only [sampleLines, h, ih]
      rfl

/-- The first sentence already fails when there is none. -/
theorem sample_of_unproductive (hg : g.WellFormed)
    (hnone : g.derivationTrees (.nonterminal g.start) = ∅) (depth : Nat) (tapes : Nat → List Nat)
    {amount : Nat} (hamount : 0 < amount) :
    sample g depth tapes amount =
      ⟨[], [], .failed [Report.banner (GenerationError.unproductive g.start).message]⟩ := by
  obtain ⟨amount, rfl⟩ := Nat.exists_eq_succ_of_ne_zero hamount.ne'
  have hfails : (g.generate depth (.ofTape (tapes 0))).1 = .error (.unproductive g.start) :=
    (Grammar.generate_error_iff hg.names_nodup hg.start_mem _ _ _).mpr ⟨rfl, hnone⟩
  simp only [sample, sampleLines, hfails]

theorem exists_sentences (hg : g.WellFormed)
    (hsome : (g.derivationTrees (.nonterminal g.start)).Nonempty) (depth : Nat)
    (tapes : Nat → List Nat) :
    ∃ trees : Nat → Tree, ∀ number, trees number ∈ g.derivationTrees (.nonterminal g.start) ∧
      (g.generate depth (.ofTape (tapes number))).1 = .ok (trees number).leaves := by
  obtain ⟨t, ht⟩ := hsome
  obtain ⟨least, -, hleast⟩ := Grammar.exists_leastHeight_le ht
  choose trees htrees _ hleaves using fun number =>
    Grammar.exists_generated hg.names_nodup hleast depth (.ofTape (tapes number))
  exact ⟨trees, fun number => ⟨htrees number, hleaves number⟩⟩

/-! ### Lines -/

theorem mem_rightHandSymbols_of_leaf {t : Tree} (h : t.Derives g.Expands) {content : String}
    (hmem : content ∈ t.leaves) : t = .leaf content ∨ .terminal content ∈ g.rightHandSymbols := by
  induction h with
  | leaf text => exact Or.inl (by rw [List.mem_singleton.mp hmem])
  | node name children hexpands _ ih =>
      rw [Tree.leaves, Tree.leavesAll_eq, List.mem_flatMap] at hmem
      obtain ⟨child, hchild, hleaf⟩ := hmem
      refine Or.inr ?_
      rcases ih child hchild hleaf with rfl | hterminal
      · exact Grammar.mem_rightHandSymbols_of_expands hexpands (List.mem_map.mpr ⟨_, hchild, rfl⟩)
      · exact hterminal

theorem not_mem_intercalate {α : Type} {a : α} {sep : List α} (hsep : a ∉ sep)
    {pieces : List (List α)} (h : ∀ piece ∈ pieces, a ∉ piece) : a ∉ sep.intercalate pieces := by
  rcases eq_or_ne pieces [] with rfl | hne
  · exact List.not_mem_nil
  · refine Text.intercalate_induction (fun piece rest hpiece hrest => ?_) hne h
    simp only [List.mem_append, not_or]
    exact ⟨⟨hpiece, hsep⟩, hrest⟩

theorem Loads.feed_not_mem_phrase (h : Loads files options g) {name : String} {t : Tree}
    (ht : t ∈ g.derivationTrees (.nonterminal name)) : '\n' ∉ t.phrase.toList := by
  rw [Tree.phrase, Text.spaced, String.toList_intercalate]
  refine not_mem_intercalate (by decide) (List.forall_mem_map.mpr fun content hmem => ?_)
  obtain ⟨hroot, hd⟩ := ht
  rcases mem_rightHandSymbols_of_leaf hd hmem with rfl | hterminal
  · exact nomatch hroot
  · exact h.feed_not_mem hterminal

theorem count_stream {lines : List String} (h : ∀ line ∈ lines, '\n' ∉ line.toList) :
    (Transcript.stream lines).toList.count '\n' = lines.length := by
  rw [Transcript.stream, String.toList_join]
  induction lines with
  | nil => rfl
  | cons line lines ih =>
      obtain ⟨hline, hlines⟩ := List.forall_mem_cons.mp h
      simp [ih hlines, List.count_eq_zero.mpr hline]

/-! ### Runs -/

/-- The messages of a run that fails. -/
inductive RunFails (files : Files) (options : Options) : List String → Prop
  | load {messages : List String} :
      LoadFails files options messages → RunFails files options messages
  | unproductive {g : Grammar} {amount : Nat} :
      Loads files options g → options.sample = some amount → 0 < amount →
      g.derivationTrees (.nonterminal g.start) = ∅ →
      RunFails files options [Report.banner (GenerationError.unproductive g.start).message]
  | tooManyTokens {g : Grammar} :
      Loads files options g → options.sample = none → options.maxTokens < options.tokens.length →
      RunFails files options
        [Report.banner (tooManyTokens options.tokens.length options.maxTokens)]

theorem run_of_runFails (h : RunFails files options messages) (tapes : Nat → List Nat) :
    run files tapes options = ⟨[], [], .failed messages⟩ := by
  cases h with
  | load hfails => simp only [run, loadGrammar_of_loadFails hfails]
  | unproductive hloads hsample hamount hnone =>
      simp only [run, loadGrammar_of_loads hloads, hsample,
        sample_of_unproductive hloads.wellFormed hnone _ _ hamount]
  | tooManyTokens hloads hsample htokens =>
      simp only [run, loadGrammar_of_loads hloads, hsample, if_pos htokens]

/-- A run that samples writes as many phrases as it was asked for, unless it fails at the first. -/
theorem run_of_sample {amount : Nat} (hloads : Loads files options g)
    (hsample : options.sample = some amount) (tapes : Nat → List Nat) :
    (0 < amount ∧ g.derivationTrees (.nonterminal g.start) = ∅) ∨
      ∃ trees : Nat → Tree,
        (∀ number < amount, trees number ∈ g.derivationTrees (.nonterminal g.start) ∧
          (g.generate options.depth (.ofTape (tapes number))).1 = .ok (trees number).leaves) ∧
        run files tapes options =
          ⟨(List.range amount).map fun number => (trees number).phrase, [], .finished 0⟩ := by
  have hrun : run files tapes options = sample g options.depth tapes amount := by
    simp only [run, loadGrammar_of_loads hloads, hsample]
  by_cases hnothing : amount = 0
  · subst hnothing
    exact Or.inr ⟨fun _ => .leaf "", fun _ hlt => absurd hlt (Nat.not_lt_zero _), hrun⟩
  rcases Set.eq_empty_or_nonempty (g.derivationTrees (.nonterminal g.start)) with hnone | hsome
  · exact Or.inl ⟨Nat.pos_of_ne_zero hnothing, hnone⟩
  · obtain ⟨trees, htrees⟩ := exists_sentences hloads.wellFormed hsome options.depth tapes
    refine Or.inr ⟨trees, fun number _ => htrees number, ?_⟩
    rw [hrun, sample, sampleLines_of_sentences amount 0 fun number => (htrees number).2,
      ← List.range_eq_range']
    rfl

theorem runFails_or_finished (files : Files) (tapes : Nat → List Nat) (options : Options) :
    (∃ messages, RunFails files options messages) ∨
      ∃ exit, (run files tapes options).ending = .finished exit := by
  rcases loads_or_loadFails files options with ⟨g, hloads⟩ | ⟨messages, hfails⟩
  · cases hsample : options.sample with
    | some amount =>
        rcases run_of_sample hloads hsample tapes with ⟨hamount, hnone⟩ | ⟨trees, -, hrun⟩
        · exact Or.inl ⟨_, .unproductive hloads hsample hamount hnone⟩
        · exact Or.inr ⟨0, by rw [hrun]⟩
    | none =>
        by_cases htokens : options.maxTokens < options.tokens.length
        · exact Or.inl ⟨_, .tooManyTokens hloads hsample htokens⟩
        · simp only [run, loadGrammar_of_loads hloads, hsample, if_neg htokens, parseTokens]
          split <;> exact Or.inr ⟨_, rfl⟩
  · exact Or.inl ⟨messages, .load hfails⟩

theorem run_failed_iff {tapes : Nat → List Nat} :
    (run files tapes options).ending = .failed messages ↔ RunFails files options messages := by
  constructor
  · intro h
    rcases runFails_or_finished files tapes options with ⟨others, hfails⟩ | ⟨exit, hfinished⟩
    · rw [run_of_runFails hfails] at h
      exact Ending.failed.inj h ▸ hfails
    · rw [hfinished] at h
      exact nomatch h
  · intro hfails
    rw [run_of_runFails hfails]

/-- **A run that fails prints nothing.**  Its exit code is 1, its output is empty and its errors are the
messages, which do not depend on the random words.  A run that samples fails at the first sentence, with
nothing printed, or prints one line for each sentence that it was asked for. -/
theorem failure_prints_nothing (files : Files) (tapes : Nat → List Nat) (options : Options) :
    (∀ messages, (run files tapes options).ending = .failed messages ↔
      RunFails files options messages) ∧
    (∀ messages, (run files tapes options).ending = .failed messages →
      (run files tapes options).transcript = ⟨1, [], messages⟩ ∧
        ∀ words, Options.ofWords words = .ok options →
          execute files tapes words = ⟨1, [], messages⟩) ∧
    ∀ g amount, loadGrammar files options = .ok g → options.sample = some amount →
      (∃ failure, 0 < amount ∧
        (g.generate options.depth (.ofTape (tapes 0))).1 = .error failure ∧
        (run files tapes options).transcript = ⟨1, [], [Report.banner failure.message]⟩) ∨
      ∃ sentences : Nat → List String,
        (∀ number < amount,
          (g.generate options.depth (.ofTape (tapes number))).1 = .ok (sentences number)) ∧
        (run files tapes options).transcript =
          ⟨0, (List.range amount).map fun number => Text.spaced (sentences number), []⟩ ∧
        (Transcript.stream (run files tapes options).transcript.output).toList.count '\n' = amount := by
  have htranscript : ∀ messages, RunFails files options messages →
      (run files tapes options).transcript = ⟨1, [], messages⟩ := by
    intro messages hfails
    rw [run_of_runFails hfails]
    rfl
  refine ⟨fun _ => run_failed_iff, fun messages hfailed => ?_, fun g amount hloaded hsample => ?_⟩
  · have hshown := htranscript messages (run_failed_iff.mp hfailed)
    refine ⟨hshown, fun words hwords => ?_⟩
    simp only [execute, hwords, hshown]
  · have hloads := loadGrammar_eq_ok_iff.mp hloaded
    have hg := hloads.wellFormed
    rcases run_of_sample hloads hsample tapes with ⟨hamount, hnone⟩ | ⟨trees, htrees, hrun⟩
    · refine Or.inl ⟨.unproductive g.start, hamount, ?_, ?_⟩
      · exact (Grammar.generate_error_iff hg.names_nodup hg.start_mem _ _ _).mpr ⟨rfl, hnone⟩
      · exact htranscript _ (.unproductive hloads hsample hamount hnone)
    · refine Or.inr ⟨fun number => (trees number).leaves, fun number hlt => (htrees number hlt).2,
        ?_, ?_⟩
      · rw [hrun]
        rfl
      · rw [hrun]
        show (Transcript.stream ((List.range amount).map _)).toList.count '\n' = amount
        rw [count_stream, List.length_map, List.length_range]
        refine List.forall_mem_map.mpr fun number hnumber => ?_
        exact hloads.feed_not_mem_phrase (htrees number (List.mem_range.mp hnumber)).1

/-- Three tokens where two are allowed. -/
def limitedOptions : Options :=
  { Options.initial with expression := ["a + b"], maxTokens := 2 }

/-- Two sentences, no higher than they have to be. -/
def samplingOptions : Options :=
  { Options.initial with sample := some 2, depth := 3 }

/-- Too many tokens are refused with nothing printed, and two sentences are printed on two lines. -/
theorem failure_prints_nothing_options :
    Options.ofWords ["--max-tokens=2", "a + b"] = .ok limitedOptions ∧
    (∀ files tapes, execute files tapes ["--max-tokens=2", "a + b"] =
      ⟨1, [], [Report.banner (tooManyTokens 3 2)]⟩) ∧
    ∀ files, (run files (fun _ => []) samplingOptions).transcript = ⟨0, ["a", "a"], []⟩ := by
  have hwords : Options.ofWords ["--max-tokens=2", "a + b"] = .ok limitedOptions := by decide
  refine ⟨hwords, fun files tapes => ?_, fun files => ?_⟩
  · exact ((failure_prints_nothing files tapes limitedOptions).2.1 _ rfl).2 _ hwords
  · have hgenerate : (Arithmetic.grammar.generate 3 (.ofTape [])).1 = .ok ["a"] := by decide +kernel
    rcases (failure_prints_nothing files (fun _ => []) samplingOptions).2.2 _ 2 rfl rfl with
      ⟨failure, -, hfailure, -⟩ | ⟨sentences, hsentences, hshown, -⟩
    · exact absurd (hgenerate.symm.trans hfailure) nofun
    · have hsentence : ∀ number < 2, sentences number = ["a"] := fun number hlt =>
        Except.ok.inj ((hsentences number hlt).symm.trans hgenerate)
      rw [hshown]
      simp [List.range_succ, hsentence, Text.spaced]

end ParseForest.CommandLine
