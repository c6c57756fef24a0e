import ParseForest.Grammar.Build
import ParseForest.GrammarText.RuleLine
import ParseForest.Text.Line

/-! # Reading a grammar

A grammar is written as a text with a rule on each line that is neither blank nor a comment.
The first rule's name is the start symbol.  If lines are faulty, each of them is reported, in
order, at its own number among all lines.  If the lines are in order but make no grammar, each
problem is reported at the first rule that has to do with it, or for the file as a whole.

Text comes as a string or as the bytes of a file.  The lines of a file are decoded one by one,
and a line that is no text is a fault of the file; the other lines are still read. -/

namespace ParseForest

/-- A line as it was read, or why it could not be. -/
abbrev LineRead := Except ReadFault String

/-- What each path leads to: the bytes of a file, or why they cannot be read. -/
abbrev Files := String → Except ReadFault ByteArray

namespace GrammarText

/-- The lines that matter, with their numbers: those with a rule, and those that cannot be read. -/
def numbered (lines : List LineRead) : List (LineRead × Nat) :=
  (lines.zipIdx 1).filter fun line =>
    match line.1 with
    | .ok text => RuleLine.isRuleLine text
    | .error _ => true

/-- The rule on a line of a file, or what is wrong there. -/
def readLine (file : String) (line : LineRead × Nat) : Except (Located Fault) RuleLine :=
  match line.1 with
  | .error fault => .error ⟨.wholeFile file, .unreadable fault⟩
  | .ok text =>
    match RuleLine.ofLine ⟨file, line.2⟩ text with
    | .error fault => .error ⟨⟨file, line.2⟩, fault⟩
    | .ok rule => .ok rule

/-- Whether a rule has to do with a problem. -/
def concerns : Problem → RuleLine → Bool
  | .undefinedNonterminal name, rule => .nonterminal name ∈ rule.alternatives.flatten
  | .missingStart name, rule => rule.name = name
  | .noAlternatives name, rule => rule.name = name
  | .startNotNonterminal _, _ => false
  | .terminalLeftHandSide _, _ => false

/-- Where a problem is reported: at the first rule that has to do with it, or for the file. -/
def locate (file : String) (rules : List RuleLine) (problem : Problem) : Location :=
  match rules.find? (concerns problem) with
  | some rule => rule.location
  | none => .wholeFile file

/-- The grammar that the rules of a file make, starting from the first. -/
def ofRuleLines (file : String) (rules : List RuleLine) : Except (List (Located Fault)) Grammar :=
  let start := (rules.head?.map RuleLine.name).getD ""
  let entries := rules.map fun rule => (Symbol.nonterminal rule.name, rule.alternatives)
  match Grammar.ofRules (.nonterminal start) entries with
  | .ok grammar => .ok grammar
  | .error malformed =>
    .error (malformed.problems.map fun problem => ⟨locate file rules problem, .malformed problem⟩)

/-- The items that failed, and those that did not, in order. -/
def partition {ε α : Type} : List (Except ε α) → List ε × List α
  | [] => ([], [])
  | item :: rest =>
    let parts := partition rest
    match item with
    | .error e => (e :: parts.1, parts.2)
    | .ok a => (parts.1, a :: parts.2)

/-- The grammar on the lines of a file. -/
def ofLines (file : String) (lines : List LineRead) : Except (List (Located Fault)) Grammar :=
  match partition ((numbered lines).map (readLine file)) with
  | ([], rules) => ofRuleLines file rules
  | (fault :: faults, _) => .error (fault :: faults)

/-- The grammar in a text; the file's name only tells where faults are. -/
def ofText (file text : String) : Except (List (Located Fault)) Grammar :=
  ofLines file ((Text.lines text).map .ok)

/-- A line decoded from its bytes. -/
def decodeLine (bytes : List UInt8) : LineRead :=
  match String.fromUTF8? ⟨bytes.toArray⟩ with
  | some text => .ok text
  | none => .error .notUtf8

/-- The grammar in the bytes of a file. -/
def ofBytes (file : String) (bytes : ByteArray) : Except (List (Located Fault)) Grammar :=
  ofLines file ((Text.byteLines bytes.data.toList).map decodeLine)

/-- The grammar in a file. -/
def ofFile (files : Files) (file : String) : Except (List (Located Fault)) Grammar :=
  match files file with
  | .ok bytes => ofBytes file bytes
  | .error fault => .error [⟨.wholeFile file, .unreadable fault⟩]

end GrammarText

end ParseForest
