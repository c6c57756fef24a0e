import ParseForest.CommandLine.Options

/-! # The wording of the command line's own answers -/

namespace ParseForest.CommandLine

/-- The name and version of the program. -/
def versionLine : String :=
  "chartparse 0.1.0"

/-- How the program is called. -/
def usageLine : String :=
  "Usage: chartparse [OPTIONS] [EXPRESSION]..."

/-- What the program does, and its options. -/
def helpLines : List String :=
  ["List the derivations of an expression under a context-free grammar",
    "",
    usageLine,
    "",
    "Arguments:",
    "  [EXPRESSION]...              Expression to parse; tokens are separated by whitespace",
    "",
    "Options:",
    "  -g, --grammar <FILE>         File containing the grammar (default: arithmetic expressions)",
    "  -s, --start <SYMBOL>         Start symbol (default: first in the file)",
    "  -d, --direction <DIRECTION>  Derivation order, leftmost or rightmost",
    "      --ast                    Show the abstract syntax tree instead of the derivation",
    "      --forms                  List sentential forms instead of node yields",
    "  -a, --all                    Show every derivation, not only the first",
    "  -n, --sample <AMOUNT>        Generate sentences from the grammar instead of parsing",
    "      --depth <DEPTH>          How deep generated sentences may go (default: 6)",
    "      --max-tokens <TOKENS>    Refuse inputs of more tokens (default: 64)",
    "  -v, --verbose                Print chart statistics to stderr",
    "  -h, --help                   Print help",
    "  -V, --version                Print version"]

/-- The name of an option, with its hyphens. -/
def Key.spelling (key : Key) : String :=
  match Key.named.find? fun entry => entry.2 = key with
  | some entry => "--" ++ entry.1
  | none => "--"

/-- The wording of a refusal. -/
def UsageFault.message : UsageFault → String
  | unknown spelling => "unexpected argument '" ++ spelling ++ "' found"
  | missingValue setting => "a value is required for '" ++ (Key.setting setting).spelling ++ "'"
  | unexpectedValue key => "no value is expected for '" ++ key.spelling ++ "'"
  | invalidValue setting value =>
    "invalid value '" ++ value ++ "' for '" ++ (Key.setting setting).spelling ++ "'"
  | repeated key => "the argument '" ++ key.spelling ++ "' cannot be used multiple times"
  | conflict => "the argument '--forms' cannot be used with '--ast'"

end ParseForest.CommandLine
