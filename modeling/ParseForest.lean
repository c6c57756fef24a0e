import ParseForest.Arithmetic.Expression
import ParseForest.Chart.Boundaries
import ParseForest.Chart.Forest
import ParseForest.Chart.Lookup
import ParseForest.Chart.Recursion
import ParseForest.Chart.Statistics
import ParseForest.CommandLine.Parts
import ParseForest.CommandLine.Run
import ParseForest.Derivation.Form
import ParseForest.Derivation.Order
import ParseForest.Derivation.Phrase
import ParseForest.Derivation.Sequence
import ParseForest.Grammar.Reachable
import ParseForest.Grammar.WellFormed
import ParseForest.GrammarText.Indexed
import ParseForest.GrammarText.Reader
import ParseForest.GrammarText.Round
import ParseForest.GrammarText.Writer
import ParseForest.GrammarText.Written
import ParseForest.Main
import ParseForest.Proofs.Arithmetic.Expression
import ParseForest.Proofs.Chart.Acceptance
import ParseForest.Proofs.Chart.Derivations
import ParseForest.Proofs.Chart.Order
import ParseForest.Proofs.Chart.RuleOrder
import ParseForest.Proofs.Chart.Search
import ParseForest.Proofs.Chart.Statistics
import ParseForest.Proofs.Chart.Termination
import ParseForest.Proofs.CommandLine.Failure
import ParseForest.Proofs.CommandLine.Parsing
import ParseForest.Proofs.CommandLine.WordBoundaries
import ParseForest.Proofs.Derivation.Count
import ParseForest.Proofs.Derivation.Expansion
import ParseForest.Proofs.Derivation.Frontier
import ParseForest.Proofs.Derivation.Height
import ParseForest.Proofs.Derivation.Mirror
import ParseForest.Proofs.Derivation.Phrases
import ParseForest.Proofs.Grammar.Diagnosis
import ParseForest.Proofs.Grammar.Productions
import ParseForest.Proofs.Grammar.Invariant
import ParseForest.Proofs.Grammar.Rebuild
import ParseForest.Proofs.Grammar.Regrouping
import ParseForest.Proofs.GrammarText.Faults
import ParseForest.Proofs.GrammarText.Insertion
import ParseForest.Proofs.GrammarText.Internal
import ParseForest.Proofs.GrammarText.Lexeme
import ParseForest.Proofs.GrammarText.RoundTrip
import ParseForest.Proofs.GrammarText.Scan
import ParseForest.Proofs.GrammarText.Spacing
import ParseForest.Proofs.GrammarText.Written
import ParseForest.Proofs.Sentence.Agreement
import ParseForest.Proofs.Sentence.Depth
import ParseForest.Proofs.Sentence.Grow
import ParseForest.Proofs.Sentence.Height
import ParseForest.Proofs.Sentence.Language
import ParseForest.Proofs.Sentence.Outcome
import ParseForest.Proofs.Sentence.RuleOrder
import ParseForest.Proofs.Sentence.Run
import ParseForest.Proofs.Simplifier.Agreement
import ParseForest.Proofs.Simplifier.Normal
import ParseForest.Proofs.Simplifier.Reading
import ParseForest.Proofs.Simplifier.Stages
import ParseForest.Proofs.Tree.Render
import ParseForest.Sentence.Generate
import ParseForest.Simplifier.Normal
import ParseForest.Tree.Occurrence
import ParseForest.Tree.Reading
import ParseForest.Tree.Render
import ParseForest.Tree.Reverse
import ParseForest.Tree.Untyped
