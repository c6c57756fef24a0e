import ParseForest.Derivation.Direction
import ParseForest.Text.WhiteSpace

/-! # Command line options

What a command line can ask for: the options of a run with their defaults, the spellings of the
options, and the ways in which a command line asks for no run at all. -/

namespace ParseForest.CommandLine

/-- What a run is asked to do. -/
structure Options where
  /-- The words of the expression, each of any number of tokens. -/
  expression : List String
  /-- The grammar file; without one, the grammar of arithmetic expressions is used. -/
  grammarFile : Option String
  /-- The start symbol, if not the grammar's own. -/
  start : Option String
  direction : Direction
  /-- Show simplified trees. -/
  ast : Bool
  /-- Show sentential forms. -/
  forms : Bool
  /-- Show every derivation. -/
  all : Bool
  /-- The number of sentences to generate, instead of parsing. -/
  sample : Option Nat
  /-- The depth of generated sentences. -/
  depth : Nat
  /-- The greatest number of tokens that is parsed. -/
  maxTokens : Nat
  /-- Show statistics of the chart. -/
  verbose : Bool
deriving DecidableEq, Repr

/-- The options of an empty command line. -/
def Options.initial : Options where
  expression := []
  grammarFile := none
  start := none
  direction := .leftmost
  ast := false
  forms := false
  all := false
  sample := none
  depth := 6
  maxTokens := 64
  verbose := false

/-- The tokens of the expression. -/
def Options.tokens (options : Options) : List String :=
  options.expression.flatMap Text.words

/-! ### The names of options -/

/-- The options that stand alone. -/
inductive Switch where
  | ast
  | forms
  | all
  | verbose
deriving DecidableEq, Repr

/-- The options that take a value. -/
inductive Setting where
  | grammar
  | start
  | direction
  | sample
  | depth
  | maxTokens
deriving DecidableEq, Repr

/-- All options. -/
inductive Key where
  | switch (which : Switch)
  | setting (which : Setting)
  | version
  | help
deriving DecidableEq, Repr

/-- The option with a letter. -/
def Key.ofLetter : Char → Option Key
  | 'g' => some (.setting .grammar)
  | 's' => some (.setting .start)
  | 'd' => some (.setting .direction)
  | 'a' => some (.switch .all)
  | 'n' => some (.setting .sample)
  | 'v' => some (.switch .verbose)
  | 'V' => some .version
  | 'h' => some .help
  | _ => none

/-- All options with their names. -/
def Key.named : List (String × Key) :=
  [("grammar", .setting .grammar), ("start", .setting .start), ("direction", .setting .direction),
    ("ast", .switch .ast), ("forms", .switch .forms), ("all", .switch .all),
    ("sample", .setting .sample), ("depth", .setting .depth), ("max-tokens", .setting .maxTokens),
    ("verbose", .switch .verbose), ("version", .version), ("help", .help)]

/-- The option with a name. -/
def Key.ofName (name : String) : Option Key :=
  Key.named.lookup name

/-! ### Refusals -/

/-- Why a command line is refused. -/
inductive UsageFault where
  /-- No option has this spelling. -/
  | unknown (spelling : String)
  /-- The option takes a value, and none follows. -/
  | missingValue (setting : Setting)
  /-- The option stands alone, and a value follows. -/
  | unexpectedValue (key : Key)
  /-- The value cannot be read. -/
  | invalidValue (setting : Setting) (value : String)
  /-- The option was given before. -/
  | repeated (key : Key)
  /-- Simplified trees and sentential forms cannot both be shown. -/
  | conflict
deriving DecidableEq, Repr

/-- What ends the reading before a run has been asked for. -/
inductive Stop where
  | refused (fault : UsageFault)
  | version
  | help
deriving DecidableEq, Repr

end ParseForest.CommandLine
