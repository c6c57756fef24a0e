import ParseForest.CommandLine.Words

/-! # The two parts of a command line

A word of a command line is an option or the value of one, or else it is a word of the expression.
Which of the two it is depends only on the word itself and on whether the word before it leaves a value
to it; so a command line that is refused has these parts as well. -/

namespace ParseForest.CommandLine

/-- The options with another expression. -/
def Options.withExpression (options : Options) (expression : List String) : Options :=
  { options with expression }

/-- Whether letters behind one hyphen leave a value to the next word. -/
def lettersAwaitValue : List Char → Bool
  | [] => false
  | c :: cs =>
    match Key.ofLetter c with
    | some (.switch _) => lettersAwaitValue cs
    | some (.setting _) => cs.isEmpty
    | _ => false

/-- Whether a name behind two hyphens leaves a value to the next word. -/
def nameAwaitsValue (name : String) (value : Option String) : Bool :=
  match Key.ofName name, value with
  | some (.setting _), none => true
  | _, _ => false

/-- The words that are options or their values, and the words of the expression. -/
structure Parts where
  options : List String
  expression : List String
deriving DecidableEq, Repr

namespace Parts

/-- One more option, or value of an option, in front. -/
def consOption (word : String) (parts : Parts) : Parts :=
  { parts with options := word :: parts.options }

/-- One more word of the expression in front. -/
def consExpression (word : String) (parts : Parts) : Parts :=
  { parts with expression := word :: parts.expression }

/-- The parts of some words, when a value may be due. -/
def ofWords : (due : Bool) → List String → Parts
  | _, [] => ⟨[], []⟩
  | true, word :: rest => (ofWords false rest).consOption word
  | false, word :: rest =>
    match WordKind.ofWord word with
    | .plain => (ofWords false rest).consExpression word
    | .separator => ⟨[], rest⟩
    | .letters cs => (ofWords (lettersAwaitValue cs) rest).consOption word
    | .name name value => (ofWords (nameAwaitsValue name value) rest).consOption word

/-- The parts of a command line. -/
def ofLine (line : List String) : Parts :=
  ofWords false line

end Parts

end ParseForest.CommandLine
