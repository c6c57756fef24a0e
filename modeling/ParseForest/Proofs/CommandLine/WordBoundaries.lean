import ParseForest.CommandLine.Parts
import ParseForest.CommandLine.Run
import ParseForest.Proofs.Text.Words

/-! # Word boundaries on the command line

How the tokens of an expression are spread over the words of a command line makes no difference to the
run.  The tokens are those of the words joined by spaces, and a run sees nothing else of the expression
(`run_withExpression_congr`).  Reading a command line takes in the options without a look at the
expression, so it comes to reading the options alone and adding the expression (`readsInParts`), and the
expression may stand anywhere between the options (`word_boundaries_immaterial`). -/

namespace ParseForest.CommandLine

variable {files : Files} {tapes : Nat → List Nat} {draft : Draft} {expression : List String}

/-! ### Options are taken in whatever the expression is -/

namespace Draft

/-- The draft with another expression. -/
def withExpression (draft : Draft) (expression : List String) : Draft :=
  { draft with options := draft.options.withExpression expression }

theorem addWords_withExpression (words : List String) :
    (draft.withExpression expression).addWords words =
      draft.withExpression (expression ++ words) :=
  rfl

theorem finish_withExpression (draft : Draft) (expression : List String) :
    (draft.withExpression expression).finish =
      (fun options => options.withExpression expression) <$> draft.finish := by
  unfold finish withExpression Options.withExpression
  split <;> rfl

theorem note_withExpression (key : Key) :
    (draft.withExpression expression).note key =
      (fun draft => draft.withExpression expression) <$> draft.note key := by
  unfold note withExpression
  split <;> rfl

theorem turnOn_withExpression (which : Switch) :
    (draft.withExpression expression).turnOn which =
      (fun draft => draft.withExpression expression) <$> draft.turnOn which := by
  unfold turnOn
  rw [note_withExpression, bind_map_left, map_bind]
  cases which <;> rfl

theorem change?_withExpression (options : Options) (which : Setting) (value : String) :
    change? (options.withExpression expression) which value =
      (change? options which value).map fun options => options.withExpression expression := by
  cases which with
  | start => rfl
  | grammar | direction =>
      simp only [change?]
      split <;> rfl
  | sample | depth | maxTokens =>
      simp only [change?, Option.map_map]
      rfl

theorem assign_withExpression (which : Setting) (value : String) :
    (draft.withExpression expression).assign which value =
      (fun draft => draft.withExpression expression) <$> draft.assign which value := by
  unfold assign
  rw [note_withExpression, bind_map_left, map_bind]
  refine bind_congr fun draft => ?_
  rw [withExpression, change?_withExpression]
  cases change? draft.options which value <;> rfl

end Draft

/-- What has been taken in, a setting without its value included, with another expression. -/
def takenWithExpression (expression : List String) (read : Draft × Option Setting) :
    Draft × Option Setting :=
  (read.1.withExpression expression, read.2)

theorem readLetters_withExpression (cs : List Char) :
    readLetters (draft.withExpression expression) cs =
      takenWithExpression expression <$> readLetters draft cs := by
  induction cs generalizing draft with
  | nil => rfl
  | cons c cs ih =>
      cases hkey : Key.ofLetter c with
      | none =>
          simp only [readLetters, hkey]
          rfl
      | some key =>
          cases key with
          | switch which =>
              simp only [readLetters, hkey, Draft.turnOn_withExpression, bind_map_left, map_bind, ih]
          | setting which =>
              simp only [readLetters, hkey, Draft.assign_withExpression, Functor.map_map]
              split
              · rfl
              · rw [Functor.map_map]
                rfl
              · rw [Functor.map_map]
                rfl
          | version | help =>
              simp only [readLetters, hkey]
              rfl

theorem readName_withExpression (name : String) (value : Option String) :
    readName (draft.withExpression expression) name value =
      takenWithExpression expression <$> readName draft name value := by
  unfold readName
  -- a name with no key, then `--version` and `--help`, a switch, a setting without its value
  -- and one with it, and what is left has a value that it may not have
  split
  · rfl
  · rfl
  · rfl
  · rw [Draft.turnOn_withExpression, Functor.map_map, Functor.map_map]
    rfl
  · rfl
  · rw [Draft.assign_withExpression, Functor.map_map, Functor.map_map]
    rfl
  · rfl

/-! ### Which words are values -/

theorem exists_of_bind_eq_ok {ε α β : Type} {read : Except ε α} {next : α → Except ε β} {b : β}
    (h : read >>= next = .ok b) : ∃ a, read = .ok a ∧ next a = .ok b := by
  cases read with
  | error stop => exact nomatch h
  | ok a => exact ⟨a, rfl, h⟩

theorem exists_of_map_eq_ok {ε α β : Type} {read : Except ε α} {f : α → β} {b : β}
    (h : f <$> read = .ok b) : ∃ a, read = .ok a ∧ f a = b := by
  cases read with
  | error stop => exact nomatch h
  | ok a => exact ⟨a, rfl, Except.ok.inj h⟩

theorem isSome_due_of_readLetters {cs : List Char} {taken : Draft × Option Setting}
    (h : readLetters draft cs = .ok taken) : taken.2.isSome = lettersAwaitValue cs := by
  induction cs generalizing draft with
  | nil =>
      obtain rfl := Except.ok.inj h
      rfl
  | cons c cs ih =>
      simp only [readLetters] at h
      simp only [lettersAwaitValue]
      cases hkey : Key.ofLetter c with
      | none =>
          rw [hkey] at h
          exact nomatch h
      | some key =>
          rw [hkey] at h
          cases key with
          | switch which =>
              obtain ⟨draft, -, hrest⟩ := exists_of_bind_eq_ok h
              exact ih hrest
          | setting which =>
              -- behind a setting is nothing, an equals sign and the value, or the value alone
              dsimp only at h ⊢
              split at h
              · obtain rfl := Except.ok.inj h
                rfl
              · obtain ⟨draft, -, rfl⟩ := exists_of_map_eq_ok h
                rfl
              · next hne _ =>
                  obtain ⟨draft, -, rfl⟩ := exists_of_map_eq_ok h
                  exact (List.isEmpty_eq_false_iff.mpr hne).symm
          | version | help => exact nomatch h

theorem isSome_due_of_readName {name : String} {value : Option String}
    {taken : Draft × Option Setting} (h : readName draft name value = .ok taken) :
    taken.2.isSome = nameAwaitsValue name value := by
  unfold readName at h
  unfold nameAwaitsValue
  -- the cases are those of `readName_withExpression`
  split at h
  · exact nomatch h
  · exact nomatch h
  · exact nomatch h
  · next hkey =>
      obtain ⟨draft, -, rfl⟩ := exists_of_map_eq_ok h
      rw [hkey]
      rfl
  · next hkey =>
      obtain rfl := Except.ok.inj h
      rw [hkey]
      rfl
  · next hkey =>
      obtain ⟨draft, -, rfl⟩ := exists_of_map_eq_ok h
      rw [hkey]
      rfl
  · exact nomatch h

/-! ### The two parts of a command line are read apart -/

/-- Reading the words comes to reading those that are options and then adding the others to the
expression. -/
def ReadsInParts (words : List String) : Prop :=
  ∀ (draft : Draft) (due : Option Setting) (expression : List String),
    readWords (draft.withExpression expression) due words =
      (fun options => options.withExpression
        (expression ++ (Parts.ofWords due.isSome words).expression)) <$>
          readWords draft due (Parts.ofWords due.isSome words).options

/-- Words behind an option are read in parts, whether or not the first is its value. -/
theorem ReadsInParts.bind {rest : List String} (h : ReadsInParts rest)
    {read read' : Except Stop (Draft × Option Setting)} {awaits : Bool}
    (hread : read' = takenWithExpression expression <$> read)
    (hdue : ∀ taken, read = .ok taken → taken.2.isSome = awaits) :
    (read' >>= fun taken => readWords taken.1 taken.2 rest) =
      (fun options => options.withExpression
        (expression ++ (Parts.ofWords awaits rest).expression)) <$>
          (read >>= fun taken => readWords taken.1 taken.2 (Parts.ofWords awaits rest).options) := by
  rw [hread]
  cases htaken : read with
  | error stop => rfl
  | ok taken =>
      rw [← hdue taken htaken]
      exact h taken.1 taken.2 expression

/-- **Reading a command line comes to reading its options and adding its expression.** -/
theorem readsInParts (words : List String) : ReadsInParts words := by
  -- word by word: an option changes the draft under any expression, a word of the expression changes
  -- the expression under any draft
  induction words with
  | nil =>
      intro draft due expression
      cases due with
      | none =>
          rw [Parts.ofWords, List.append_nil]
          exact draft.finish_withExpression expression
      | some which => rfl
  | cons word rest ih =>
      intro draft due expression
      cases due with
      | some which =>
          simp only [readWords, Option.isSome_some, Parts.ofWords, Parts.consOption]
          split
          · rw [Draft.assign_withExpression, bind_map_left, map_bind]
            exact bind_congr fun draft => ih draft none expression
          · rfl
      | none =>
          simp only [readWords, Option.isSome_none, Parts.ofWords]
          cases hkind : WordKind.ofWord word with
          | plain =>
              simp only [Parts.consExpression, Draft.addWords_withExpression]
              rw [ih, Option.isSome_none, List.append_assoc]
              rfl
          | separator => exact draft.finish_withExpression (expression ++ rest)
          | letters cs =>
              simp only [Parts.consOption, readWords, hkind]
              exact ih.bind (readLetters_withExpression cs) fun _ => isSome_due_of_readLetters
          | name name value =>
              simp only [Parts.consOption, readWords, hkind]
              exact ih.bind (readName_withExpression name value) fun _ => isSome_due_of_readName

theorem ofWords_eq_withExpression (line : List String) :
    Options.ofWords line =
      (fun options => options.withExpression (Parts.ofLine line).expression) <$>
        Options.ofWords (Parts.ofLine line).options :=
  readsInParts line ⟨.initial, []⟩ none []

/-! ### A run sees the tokens -/

theorem tokens_eq_words (options : Options) :
    options.tokens = Text.words (Text.spaced options.expression) :=
  (Text.words_spaced options.expression).symm

/-- A run sees nothing of the expression but its tokens. -/
theorem run_withExpression_congr {options : Options} {words words' : List String}
    (h : Text.words (Text.spaced words) = Text.words (Text.spaced words')) :
    run files tapes (options.withExpression words) =
      run files tapes (options.withExpression words') := by
  have htokens : (options.withExpression words).tokens = (options.withExpression words').tokens := by
    rw [tokens_eq_words, tokens_eq_words]
    exact h
  unfold run
  rw [htokens]
  rfl

/-- **The boundaries between the words of an expression make no difference.**  The tokens are the words
of the expression joined by spaces, so runs with the same options and the same tokens are the same.  Each
command line is read as its options with its expression; so command lines whose options are read alike,
wherever the expression stands between them, have the same exit code and the same lines on the two
streams when their expressions, joined, have the same words. -/
theorem word_boundaries_immaterial (files : Files) (tapes : Nat → List Nat) :
    (∀ options : Options, options.tokens = Text.words (Text.spaced options.expression)) ∧
    (∀ (options : Options) (words words' : List String),
      Text.words (Text.spaced words) = Text.words (Text.spaced words') →
      run files tapes (options.withExpression words) =
        run files tapes (options.withExpression words')) ∧
    (∀ line, Options.ofWords line =
      (fun options => options.withExpression (Parts.ofLine line).expression) <$>
        Options.ofWords (Parts.ofLine line).options) ∧
    ∀ line line',
      Options.ofWords (Parts.ofLine line).options = Options.ofWords (Parts.ofLine line').options →
      Text.words (Text.spaced (Parts.ofLine line).expression) =
        Text.words (Text.spaced (Parts.ofLine line').expression) →
      execute files tapes line = execute files tapes line' := by
  refine ⟨tokens_eq_words, fun _ _ _ => run_withExpression_congr, ofWords_eq_withExpression,
    fun line line' hoptions hwords => ?_⟩
  unfold execute
  rw [ofWords_eq_withExpression line, ofWords_eq_withExpression line', hoptions]
  cases Options.ofWords (Parts.ofLine line').options with
  | error stop => rfl
  | ok options => exact congrArg Outcome.transcript (run_withExpression_congr hwords)

/-- One word, with the options in front. -/
def joinedLine : List String :=
  ["--direction", "right", "--ast", "a + b"]

/-- The same tokens in three words, one of them empty and one of two tokens between wide spaces.  They
stand around the options, which are spelled in another way. -/
def scatteredLine : List String :=
  ["a", "--ast", "", "-dRIGHT", "--", "\u2003+\u2003b "]

/-- Tokens that are spread over several words are parsed as they are in one. -/
theorem word_boundaries_immaterial_sum :
    Parts.ofLine scatteredLine = ⟨["--ast", "-dRIGHT"], ["a", "", "\u2003+\u2003b "]⟩ ∧
    Options.ofWords (Parts.ofLine joinedLine).options =
      Options.ofWords (Parts.ofLine scatteredLine).options ∧
    Text.words (Text.spaced (Parts.ofLine joinedLine).expression) =
      Text.words (Text.spaced (Parts.ofLine scatteredLine).expression) ∧
    execute (fun _ => .error .noSuchFile) (fun _ => []) scatteredLine =
      ⟨0, ["Abstract syntax tree:", "(+ a b)"], []⟩ := by
  have hoptions : Options.ofWords (Parts.ofLine joinedLine).options =
      Options.ofWords (Parts.ofLine scatteredLine).options := by decide
  have hwords : Text.words (Text.spaced (Parts.ofLine joinedLine).expression) =
      Text.words (Text.spaced (Parts.ofLine scatteredLine).expression) := by decide
  refine ⟨by decide, hoptions, hwords, ?_⟩
  obtain ⟨-, -, -, hsame⟩ := word_boundaries_immaterial (fun _ => .error .noSuchFile) (fun _ => [])
  rw [← hsame joinedLine scatteredLine hoptions hwords]
  decide +kernel

end ParseForest.CommandLine
