import ParseForest.Chart.Forest
import ParseForest.Chart.Statistics
import ParseForest.CommandLine.Usage
import ParseForest.CommandLine.Words
import ParseForest.Derivation.Form
import ParseForest.Derivation.Phrase
import ParseForest.Arithmetic.Grammar
import ParseForest.GrammarText.Reader
import ParseForest.Sentence.Generate
import ParseForest.Simplifier
import ParseForest.Tree.Render

/-! # Running a command line

A run is a function of the options, of what the paths lead to and of a tape of random words for
each sentence that is generated.  It writes lines to two streams and then either finishes with an
exit code or fails with messages; what was written before a failure stays written.  The
transcript adds the messages of a failure to the second stream. -/

namespace ParseForest.CommandLine

/-- How a run ends. -/
inductive Ending where
  | finished (exit : Nat)
  | failed (messages : List String)
deriving DecidableEq, Repr

/-- The lines that a run writes to the two streams, and how it ends.  A line may hold line feeds
of its own. -/
structure Outcome where
  output : List String
  errors : List String
  ending : Ending
deriving DecidableEq, Repr

/-- What is seen of a run: the exit code, and the lines on the two streams. -/
structure Transcript where
  exit : Nat
  output : List String
  errors : List String
deriving DecidableEq, Repr

/-- A failure has the exit code 1 and shows its messages. -/
def Outcome.transcript (outcome : Outcome) : Transcript :=
  match outcome.ending with
  | .finished exit => ⟨exit, outcome.output, outcome.errors⟩
  | .failed messages => ⟨1, outcome.output, outcome.errors ++ messages⟩

/-- The texts as lines on a stream. -/
def Transcript.stream (lines : List String) : String :=
  String.join (lines.map (· ++ "\n"))

/-! ### The grammar -/

/-- The grammar to use, or the messages of a failure: from the file if one is given, with the
start symbol replaced if one is given. -/
def loadGrammar (files : Files) (options : Options) : Except (List String) Grammar := do
  let grammar ←
    match options.grammarFile with
    | none => pure Arithmetic.grammar
    | some file =>
      match GrammarText.ofFile files file with
      | .ok grammar => pure grammar
      | .error faults =>
        throw (faults.map fun located => Report.atLocation located.location located.fault.message)
  match options.start with
  | none => return grammar
  | some start =>
    match grammar.withStart start with
    | .ok grammar => return grammar
    | .error malformed => throw [Report.banner malformed.message]

/-! ### Sampling -/

/-- The sentences generated from the tapes of the given number on, up to a failure. -/
def sampleLines (grammar : Grammar) (depth : Nat) (tapes : Nat → List Nat) :
    (amount : Nat) → (number : Nat) → List String × Option GenerationError
  | 0, _ => ([], none)
  | amount + 1, number =>
    match (grammar.generate depth (.ofTape (tapes number))).1 with
    | .error failure => ([], some failure)
    | .ok sentence =>
      let later := sampleLines grammar depth tapes amount (number + 1)
      (Text.spaced sentence :: later.1, later.2)

/-- The run that generates sentences, each on a line of its own. -/
def sample (grammar : Grammar) (depth : Nat) (tapes : Nat → List Nat) (amount : Nat) : Outcome :=
  match sampleLines grammar depth tapes amount 0 with
  | (output, none) => ⟨output, [], .finished 0⟩
  | (output, some failure) => ⟨output, [], .failed [Report.banner failure.message]⟩

/-! ### Showing derivations -/

/-- How one derivation is shown. -/
def derivationLines (options : Options) (simplifier : Simplifier) (t : Tree) : List String :=
  if options.ast then
    ["Abstract syntax tree:", (simplifier.simplify t).indented]
  else if options.forms then
    ("Derivation steps (" ++ options.direction.name ++ "):") ::
      (t.forms options.direction).map fun form => "  " ++ form.render
  else
    "Derivation steps:" :: (t.phrases.map fun phrase => "  " ++ phrase) ++ [t.indented]

/-- The heading of one of several derivations. -/
def heading (number total : Nat) : String :=
  "Derivation " ++ toString number ++ " of " ++ toString total ++ ":"

/-- How the derivations are shown: all under headings, or the first alone. -/
def forestLines (options : Options) (simplifier : Simplifier) (trees : List Tree) : List String :=
  if options.all then
    (trees.zipIdx 1).flatMap fun numbered =>
      heading numbered.2 trees.length :: derivationLines options simplifier numbered.1
  else
    (trees.take 1).flatMap (derivationLines options simplifier)

/-- The line that tells that there is no derivation. -/
def noDerivation (tokens : List String) (start : String) : String :=
  "No derivation of `" ++ Text.spaced tokens ++ "` from `" ++ start ++ "`"

/-- The message about too many tokens. -/
def tooManyTokens (count limit : Nat) : String :=
  "Input has " ++ toString count ++ " tokens, more than the limit of " ++ toString limit ++
    " (see --max-tokens)"

/-- The run that parses. -/
def parseTokens (grammar : Grammar) (options : Options) (tokens : List String) : Outcome :=
  let chart := Chart.build grammar tokens
  let errors := if options.verbose then ["chart: " ++ chart.statistics.render] else []
  let trees := options.direction.arrange chart.trees
  if trees.isEmpty then ⟨[noDerivation tokens grammar.start], errors, .finished 1⟩
  else ⟨forestLines options (.forGrammar grammar) trees, errors, .finished 0⟩

/-! ### The whole run -/

/-- The run with the given options. -/
def run (files : Files) (tapes : Nat → List Nat) (options : Options) : Outcome :=
  match loadGrammar files options with
  | .error messages => ⟨[], [], .failed messages⟩
  | .ok grammar =>
    match options.sample with
    | some amount => sample grammar options.depth tapes amount
    | none =>
      let tokens := options.tokens
      if tokens.length > options.maxTokens then
        ⟨[], [], .failed [Report.banner (tooManyTokens tokens.length options.maxTokens)]⟩
      else parseTokens grammar options tokens

/-- The transcript of a command line that asks for no run. -/
def Stop.transcript : Stop → Transcript
  | refused fault => ⟨2, [], ["error: " ++ fault.message, "", usageLine]⟩
  | version => ⟨0, [versionLine], []⟩
  | help => ⟨0, helpLines, []⟩

/-- The transcript of a command line. -/
def execute (files : Files) (tapes : Nat → List Nat) (words : List String) : Transcript :=
  match Options.ofWords words with
  | .error stop => stop.transcript
  | .ok options => (run files tapes options).transcript

end ParseForest.CommandLine
