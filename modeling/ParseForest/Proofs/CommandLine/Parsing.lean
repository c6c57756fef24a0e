import ParseForest.Proofs.Chart.Derivations
import ParseForest.Proofs.CommandLine.Failure

/-! # Runs that parse

A run that is asked for no sentences, whose grammar loads and whose tokens are not too many, parses them
(`Parses`).  The grammar and the tokens alone decide which of two outcomes it has: the derivations are
shown (`transcript_of_accepts`), or one line tells that there is none (`transcript_of_not_accepts`).  What
is shown of a derivation does not depend on whether it is shown alone, and depends on the direction only
when forms are shown; so runs that differ in these options show the same bodies (`parsing_runs_agree`). -/

namespace ParseForest.CommandLine

variable {files : Files} {options : Options} {g : Grammar}

/-! ### Lines -/

theorem feed_not_mem_token {token : String} (h : token ∈ options.tokens) : '\n' ∉ token.toList := by
  obtain ⟨text, -, hword⟩ := List.mem_flatMap.mp h
  obtain ⟨word, hpiece, rfl⟩ := List.mem_map.mp hword
  rw [String.toList_ofList]
  intro hfeed
  have hspace := Text.not_of_mem_splitOnP (List.mem_filter.mp hpiece).1 hfeed
  exact absurd hspace (by decide)

theorem Loads.feed_not_mem_noDerivation (h : Loads files options g) :
    '\n' ∉ (noDerivation options.tokens g.start).toList := by
  have hspaced : '\n' ∉ (Text.spaced options.tokens).toList := by
    rw [Text.spaced, String.toList_intercalate]
    refine not_mem_intercalate (by decide) (List.forall_mem_map.mpr fun token htoken => ?_)
    exact feed_not_mem_token htoken
  unfold noDerivation
  simp only [String.toList_append, List.mem_append, not_or]
  exact ⟨⟨⟨⟨by decide, hspaced⟩, by decide⟩, h.feed_not_mem_start⟩, by decide⟩

/-! ### What is shown -/

/-- What is shown of each derivation of the tokens, in the order of the direction. -/
def bodies (g : Grammar) (options : Options) : List (List String) :=
  (parse g options.tokens options.direction).map (derivationLines options (.forGrammar g))

/-- Bodies one after the other, each under the heading with its number, from 1 on. -/
def numbered (bodies : List (List String)) : List String :=
  (bodies.mapIdx fun place body => heading (place + 1) bodies.length :: body).flatten

theorem numbered_map {α : Type} (body : α → List String) (items : List α) :
    numbered (items.map body) =
      (items.zipIdx 1).flatMap fun item => heading item.2 items.length :: body item.1 := by
  rw [numbered, List.mapIdx_eq_zipIdx_map, List.length_map, List.zipIdx_map, List.map_map,
    ← List.flatMap_def, List.zipIdx_succ, List.flatMap_map]
  rfl

theorem forestLines_all (hall : options.all = true) :
    forestLines options (.forGrammar g) (parse g options.tokens options.direction) =
      numbered (bodies g options) := by
  rw [forestLines, if_pos hall, bodies, numbered_map]

theorem forestLines_first (hall : options.all = false) {body : List String}
    (hbody : (bodies g options).head? = some body) :
    forestLines options (.forGrammar g) (parse g options.tokens options.direction) = body := by
  rw [bodies, List.head?_map, Option.map_eq_some_iff] at hbody
  obtain ⟨t, ht, rfl⟩ := hbody
  obtain ⟨trees, htrees⟩ := List.head?_eq_some_iff.mp ht
  rw [forestLines, hall, if_neg Bool.false_ne_true, htrees, List.take_succ_cons, List.take_zero,
    List.flatMap_singleton]

theorem derivationLines_direction (hforms : options.forms = false) (direction : Direction)
    (simplifier : Simplifier) (t : Tree) :
    derivationLines { options with direction } simplifier t = derivationLines options simplifier t := by
  simp only [derivationLines, hforms]
  rfl

/-- Swapping the directions reverses the bodies, unless they are forms. -/
theorem bodies_rightmost (hforms : options.forms = false) :
    bodies g { options with direction := .rightmost } =
      (bodies g { options with direction := .leftmost }).reverse := by
  have hbody : ∀ direction : Direction,
      bodies g { options with direction } =
        (parse g options.tokens direction).map (derivationLines options (.forGrammar g)) :=
    fun direction => List.map_congr_left fun t _ => derivationLines_direction hforms direction _ t
  rw [hbody, hbody, ← List.map_reverse]
  rfl

/-! ### Runs -/

/-- The run parses the tokens by the grammar. -/
structure Parses (files : Files) (options : Options) (g : Grammar) : Prop where
  loads : loadGrammar files options = .ok g
  parsing : options.sample = none
  within : options.tokens.length ≤ options.maxTokens

/-- What is to be shown, and in which order, decides nothing about whether the run parses. -/
theorem Parses.shown (h : Parses files options g) (all verbose : Bool) (direction : Direction) :
    Parses files { options with all, verbose, direction } g :=
  ⟨h.loads, h.parsing, h.within⟩

theorem Parses.names_nodup (h : Parses files options g) : g.names.Nodup :=
  (loadGrammar_eq_ok_iff.mp h.loads).wellFormed.names_nodup

/-- What a run that parses writes to the second stream. -/
def chartLines (g : Grammar) (options : Options) : List String :=
  if options.verbose then ["chart: " ++ (Chart.build g options.tokens).statistics.render] else []

theorem run_of_parses (h : Parses files options g) (tapes : Nat → List Nat) :
    run files tapes options = parseTokens g options options.tokens := by
  simp only [run, h.loads, h.parsing, if_neg (Nat.not_lt.mpr h.within)]

theorem transcript_of_not_accepts (h : Parses files options g) (tapes : Nat → List Nat)
    (hrejects : (Chart.build g options.tokens).accepts = false) :
    (run files tapes options).transcript =
      ⟨1, [noDerivation options.tokens g.start], chartLines g options⟩ := by
  have hnone : parse g options.tokens options.direction = [] := by
    by_contra hsome
    rw [(parse_ne_nil_iff h.names_nodup _ _).mp hsome] at hrejects
    exact Bool.noConfusion hrejects
  rw [run_of_parses h, parseTokens, ← parse, hnone]
  rfl

theorem transcript_of_accepts (h : Parses files options g) (tapes : Nat → List Nat)
    (haccepts : (Chart.build g options.tokens).accepts = true) :
    (run files tapes options).transcript =
      ⟨0, forestLines options (.forGrammar g) (parse g options.tokens options.direction),
        chartLines g options⟩ := by
  have hsome : (parse g options.tokens options.direction).isEmpty = false :=
    List.isEmpty_eq_false_iff.mpr ((parse_ne_nil_iff h.names_nodup _ _).mpr haccepts)
  rw [run_of_parses h, parseTokens, ← parse, hsome]
  rfl

theorem transcript_all (h : Parses files options g) (hall : options.all = true)
    (tapes : Nat → List Nat) (haccepts : (Chart.build g options.tokens).accepts = true) :
    (run files tapes options).transcript = ⟨0, numbered (bodies g options), chartLines g options⟩ := by
  rw [transcript_of_accepts h tapes haccepts, forestLines_all hall]

theorem head?_bodies (h : Parses files options g) (hall : options.all = false)
    (tapes : Nat → List Nat) (haccepts : (Chart.build g options.tokens).accepts = true) :
    (bodies g options).head? = some (run files tapes options).transcript.output := by
  have hsome : bodies g options ≠ [] :=
    mt List.map_eq_nil_iff.mp ((parse_ne_nil_iff h.names_nodup _ _).mpr haccepts)
  obtain ⟨body, rest, hbodies⟩ := List.exists_cons_of_ne_nil hsome
  have hbody : (bodies g options).head? = some body := by rw [hbodies, List.head?_cons]
  rw [transcript_of_accepts h tapes haccepts, hbody, forestLines_first hall hbody]

theorem transcript_verbose (h : Parses files options g) (tapes : Nat → List Nat) :
    (run files tapes options).transcript =
      ⟨(run files tapes { options with verbose := false }).transcript.exit,
        (run files tapes { options with verbose := false }).transcript.output,
        chartLines g options⟩ := by
  have hquiet := h.shown options.all false options.direction
  cases haccepts : (Chart.build g options.tokens).accepts with
  | true =>
      rw [transcript_of_accepts h tapes haccepts, transcript_of_accepts hquiet tapes haccepts]
      rfl
  | false =>
      rw [transcript_of_not_accepts h tapes haccepts, transcript_of_not_accepts hquiet tapes haccepts]
      rfl

/-- **Runs that parse agree with each other and with the language.**  The exit code is 0 when the start
symbol derives the tokens, and otherwise 1 with one line on the output.  All derivations are shown under
their numbers in the order of the direction, or the first alone as it is shown among all.  Unless forms
are shown, the other direction shows the same bodies in reverse.  A verbose run differs on the second
stream alone. -/
theorem parsing_runs_agree (files : Files) (tapes : Nat → List Nat) (options : Options) (g : Grammar)
    (h : Parses files options g) :
    (∀ words, Options.ofWords words = .ok options →
      execute files tapes words = (run files tapes options).transcript) ∧
    ((run files tapes options).transcript.exit = 0 ↔
      (Chart.build g options.tokens).accepts = true) ∧
    ((Chart.build g options.tokens).accepts = true ↔ g.StartDerives options.tokens) ∧
    ((Chart.build g options.tokens).accepts = false →
      (run files tapes options).transcript.exit = 1 ∧
      (run files tapes options).transcript.output = [noDerivation options.tokens g.start] ∧
      (Transcript.stream (run files tapes options).transcript.output).toList.count '\n' = 1) ∧
    ((Chart.build g options.tokens).accepts = true →
      (run files tapes { options with all := true }).transcript.output = numbered (bodies g options) ∧
      (bodies g options).length = (Chart.build g options.tokens).trees.length ∧
      (bodies g options).head? =
        some (run files tapes { options with all := false }).transcript.output ∧
      (options.forms = false →
        (run files tapes { options with all := true, direction := .leftmost }).transcript.output =
          numbered (bodies g { options with direction := .leftmost }) ∧
        (run files tapes { options with all := true, direction := .rightmost }).transcript.output =
          numbered (bodies g { options with direction := .leftmost }).reverse)) ∧
    (run files tapes { options with verbose := true }).transcript =
      ⟨(run files tapes { options with verbose := false }).transcript.exit,
        (run files tapes { options with verbose := false }).transcript.output,
        ["chart: " ++ (Chart.build g options.tokens).statistics.render]⟩ ∧
    (run files tapes { options with verbose := false }).transcript.errors = [] := by
  have hall := fun all direction => h.shown all options.verbose direction
  have hverbose := fun verbose => h.shown options.all verbose options.direction
  refine ⟨fun words hwords => ?_, ?_, Chart.accepts_iff_startDerives h.names_nodup _, fun hrejects => ?_,
    fun haccepts => ⟨?_, ?_, ?_, fun hforms => ⟨?_, ?_⟩⟩, ?_, ?_⟩
  · simp only [execute, hwords]
  · cases haccepts : (Chart.build g options.tokens).accepts with
    | true => simp [transcript_of_accepts h tapes haccepts]
    | false => simp [transcript_of_not_accepts h tapes haccepts]
  · rw [transcript_of_not_accepts h tapes hrejects]
    have hloads := loadGrammar_eq_ok_iff.mp h.loads
    refine ⟨rfl, rfl, count_stream ?_⟩
    exact List.forall_mem_singleton.mpr hloads.feed_not_mem_noDerivation
  · rw [transcript_all (hall true options.direction) rfl tapes haccepts]
    rfl
  · rw [bodies, List.length_map, Chart.length_parse]
  · exact head?_bodies (hall false options.direction) rfl tapes haccepts
  · rw [transcript_all (hall true .leftmost) rfl tapes haccepts]
    rfl
  · rw [transcript_all (hall true .rightmost) rfl tapes haccepts, ← bodies_rightmost hforms]
    rfl
  · exact transcript_verbose (hverbose true) tapes
  · rw [transcript_verbose (hverbose false) tapes]
    rfl

/-- Pairs of pairs, down to single letters. -/
def pairGrammar : Grammar :=
  ⟨"S", [⟨"S", [[.nonterminal "S", .nonterminal "S"], [.terminal "a"]]⟩]⟩

/-- A file with that grammar. -/
def pairFiles : Files := fun _ => .ok "S -> S S | 'a'\n".toUTF8

/-- Three letters in two words. -/
def pairOptions : Options :=
  { Options.initial with grammarFile := some "pairs", expression := ["a a", "a"] }

/-- Three letters with the pair behind the single letter, which is the first derivation from the left. -/
def pairBehind : List String :=
  ["Derivation steps:", "  a a a", "  a", "  a a", "  a", "  a",
    "(S\n  (S a)\n  (S\n    (S a)\n    (S a)\n  )\n)"]

/-- Three letters with the pair in front. -/
def pairInFront : List String :=
  ["Derivation steps:", "  a a a", "  a a", "  a", "  a", "  a",
    "(S\n  (S\n    (S a)\n    (S a)\n  )\n  (S a)\n)"]

/-- Three letters are shown in two ways, from the right the other way round, and a letter that is no
terminal is not derived. -/
theorem parsing_runs_agree_pairs :
    Parses pairFiles pairOptions pairGrammar ∧
    (run pairFiles (fun _ => []) pairOptions).transcript.exit = 0 ∧
    (run pairFiles (fun _ => [])
        { pairOptions with all := true, direction := .rightmost }).transcript.output =
      "Derivation 1 of 2:" :: pairInFront ++ "Derivation 2 of 2:" :: pairBehind ∧
    (run pairFiles (fun _ => []) { pairOptions with all := false }).transcript.output = pairBehind ∧
    Parses pairFiles { pairOptions with expression := ["a b"] } pairGrammar ∧
    (run pairFiles (fun _ => []) { pairOptions with expression := ["a b"] }).transcript.exit = 1 ∧
    (run pairFiles (fun _ => []) { pairOptions with expression := ["a b"] }).transcript.output =
      ["No derivation of `a b` from `S`"] := by
  have hread : GrammarText.ofText "pairs" "S -> S S | 'a'\n" = .ok pairGrammar := by decide +kernel
  have hfile : GrammarText.ofFile pairFiles "pairs" = .ok pairGrammar := by
    rw [GrammarText.ofFile_utf8 rfl, hread]
  have hloads : loadGrammar pairFiles pairOptions = .ok pairGrammar :=
    loadGrammar_of_loads (.base (.file rfl hfile) rfl)
  have hparses : Parses pairFiles pairOptions pairGrammar := ⟨hloads, rfl, by decide⟩
  have hother : Parses pairFiles { pairOptions with expression := ["a b"] } pairGrammar :=
    ⟨hloads, rfl, by decide⟩
  have haccepts : (Chart.build pairGrammar pairOptions.tokens).accepts = true := by decide +kernel
  have hbodies : bodies pairGrammar pairOptions = [pairBehind, pairInFront] := by decide +kernel
  obtain ⟨-, hexit, -, -, hshown, -⟩ :=
    parsing_runs_agree pairFiles (fun _ => []) pairOptions pairGrammar hparses
  obtain ⟨-, -, hfirst, hswapped⟩ := hshown haccepts
  obtain ⟨-, -, -, hrejected, -⟩ :=
    parsing_runs_agree pairFiles (fun _ => []) _ pairGrammar hother
  obtain ⟨hone, houtput, -⟩ := hrejected (by decide +kernel)
  rw [hbodies, List.head?_cons, Option.some.injEq] at hfirst
  refine ⟨hparses, hexit.mpr haccepts, ?_, hfirst.symm, hother, hone, houtput⟩
  rw [(hswapped rfl).2]
  decide +kernel

end ParseForest.CommandLine
