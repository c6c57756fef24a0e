import ParseForest.CommandLine.Number
import ParseForest.CommandLine.Options

/-! # Reading a command line

A word is an option if it begins with a hyphen and is more than a hyphen; the word `--` makes all
words after it part of the expression.  A switch stands alone, and short switches may share one
hyphen.  A setting takes a value: behind its letter, behind an equals sign, or in the next word,
which must not look like an option then.  No option may be given twice.

Words are read in order, and reading stops at the first that is refused or that asks for the
version or for help.  Only the conflict between two ways of showing a derivation is left to the
end. -/

namespace ParseForest.CommandLine

/-! ### Taking in an option -/

/-- The options so far, and which have been given. -/
structure Draft where
  options : Options
  given : List Key
deriving DecidableEq, Repr

namespace Draft

/-- Notes that an option is given, for the first time. -/
def note (draft : Draft) (key : Key) : Except Stop Draft :=
  if key ∈ draft.given then .error (.refused (.repeated key))
  else .ok { draft with given := key :: draft.given }

/-- The options with a switch turned on. -/
def turnOn (draft : Draft) (which : Switch) : Except Stop Draft := do
  let draft ← draft.note (.switch which)
  let options := draft.options
  return { draft with
    options := match which with
      | .ast => { options with ast := true }
      | .forms => { options with forms := true }
      | .all => { options with all := true }
      | .verbose => { options with verbose := true } }

/-- The options with a setting changed to a value, if the value can be read. -/
def change? (options : Options) (which : Setting) (value : String) : Option Options :=
  match which with
  | .grammar => if value.isEmpty then none else some { options with grammarFile := some value }
  | .start => some { options with start := some value }
  | .direction =>
    match Direction.parse value with
    | .ok direction => some { options with direction }
    | .error _ => none
  | .sample => (readNumber 32 true value).map fun amount => { options with sample := some amount }
  | .depth => (readNumber 64 false value).map fun depth => { options with depth }
  | .maxTokens => (readNumber 64 false value).map fun maxTokens => { options with maxTokens }

/-- Gives a setting its value. -/
def assign (draft : Draft) (which : Setting) (value : String) : Except Stop Draft := do
  let draft ← draft.note (.setting which)
  match change? draft.options which value with
  | some options => return { draft with options }
  | none => throw (.refused (.invalidValue which value))

/-- Adds a word to the expression. -/
def addWords (draft : Draft) (words : List String) : Draft :=
  { draft with
    options := { draft.options with expression := draft.options.expression ++ words } }

/-- The options at the end of the words. -/
def finish (draft : Draft) : Except Stop Options :=
  if draft.options.ast && draft.options.forms then .error (.refused .conflict)
  else .ok draft.options

end Draft

/-! ### Reading the words -/

/-- Takes in letters behind one hyphen; the last may be a setting whose value is still to come. -/
def readLetters (draft : Draft) : List Char → Except Stop (Draft × Option Setting)
  | [] => .ok (draft, none)
  | c :: cs =>
    match Key.ofLetter c with
    | none => .error (.refused (.unknown (String.ofList ['-', c])))
    | some .version => .error .version
    | some .help => .error .help
    | some (.switch which) => do
      let draft ← draft.turnOn which
      readLetters draft cs
    | some (.setting which) =>
      match cs with
      | [] => .ok (draft, some which)
      | '=' :: value => (fun draft => (draft, none)) <$> draft.assign which (String.ofList value)
      | value => (fun draft => (draft, none)) <$> draft.assign which (String.ofList value)

/-- Takes in a name behind two hyphens, with a value behind an equals sign if there is one. -/
def readName (draft : Draft) (name : String) (value : Option String) :
    Except Stop (Draft × Option Setting) :=
  match Key.ofName name, value with
  | none, _ => .error (.refused (.unknown ("--" ++ name)))
  | some .version, none => .error .version
  | some .help, none => .error .help
  | some (.switch which), none => (fun draft => (draft, none)) <$> draft.turnOn which
  | some (.setting which), none => .ok (draft, some which)
  | some (.setting which), some value => (fun draft => (draft, none)) <$> draft.assign which value
  | some key, some _ => .error (.refused (.unexpectedValue key))

/-- What a word can be. -/
inductive WordKind where
  /-- A part of the expression. -/
  | plain
  /-- The word after which all is expression. -/
  | separator
  /-- Letters behind one hyphen. -/
  | letters (cs : List Char)
  /-- A name behind two hyphens, and a value if an equals sign follows. -/
  | name (name : String) (value : Option String)
deriving DecidableEq, Repr

/-- The kind of a word. -/
def WordKind.ofWord (word : String) : WordKind :=
  match word.toList with
  | ['-', '-'] => .separator
  | '-' :: '-' :: cs =>
    .name (String.ofList (cs.takeWhile (· ≠ '=')))
      (match cs.dropWhile (· ≠ '=') with
        | [] => none
        | _ :: value => some (String.ofList value))
  | '-' :: c :: cs => .letters (c :: cs)
  | _ => .plain

/-- Reads the words of a command line, when the value of a setting may be due. -/
def readWords (draft : Draft) : (due : Option Setting) → List String → Except Stop Options
  | some which, [] => .error (.refused (.missingValue which))
  | none, [] => draft.finish
  | some which, word :: rest =>
    if WordKind.ofWord word = .plain then do
      let draft ← draft.assign which word
      readWords draft none rest
    else .error (.refused (.missingValue which))
  | none, word :: rest =>
    match WordKind.ofWord word with
    | .plain => readWords (draft.addWords [word]) none rest
    | .separator => (draft.addWords rest).finish
    | .letters cs => do
      let (draft, due) ← readLetters draft cs
      readWords draft due rest
    | .name name value => do
      let (draft, due) ← readName draft name value
      readWords draft due rest

/-- The options that a command line asks for. -/
def Options.ofWords (words : List String) : Except Stop Options :=
  readWords ⟨.initial, []⟩ none words

end ParseForest.CommandLine
