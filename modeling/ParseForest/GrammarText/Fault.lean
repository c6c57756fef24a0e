import ParseForest.Grammar.Problem

/-! # What can be wrong with the text of a grammar -/

namespace ParseForest

/-- Why a file, or a line of it, cannot be read. -/
inductive ReadFault where
  /-- There is no such file. -/
  | noSuchFile
  /-- The bytes are no UTF-8 text. -/
  | notUtf8
  /-- Anything else that the system reports. -/
  | other (text : String)
deriving DecidableEq, Repr

/-- The wording of a read fault. -/
def ReadFault.message : ReadFault → String
  | noSuchFile => "No such file or directory (os error 2)"
  | notUtf8 => "stream did not contain valid UTF-8"
  | other text => text

/-- What is wrong with a line, or with the rules as a whole. -/
inductive Fault where
  /-- The name at the beginning is not followed by an equals sign. -/
  | missingEquals
  /-- There is an equals sign in a right-hand side. -/
  | unexpectedEquals
  /-- The line does not begin with a name. -/
  | missingNonterminal
  /-- A quote is not closed. -/
  | unmatchedQuote
  /-- The lines can be read, but make no grammar. -/
  | malformed (problem : Problem)
  /-- A bar was left inside an alternative. -/
  | unsplitAlternatives
  /-- A line without tokens was taken for a rule. -/
  | unexpectedBlankLine
  /-- The file, or a line of it, cannot be read. -/
  | unreadable (fault : ReadFault)
deriving DecidableEq, Repr

/-- The wording of a fault. -/
def Fault.message : Fault → String
  | missingEquals => "Expected `=` or `->` after nonterminal"
  | unexpectedEquals => "Unexpected `=` encountered"
  | missingNonterminal => "Tried to define something other than a nonterminal"
  | unmatchedQuote => "Unmatched quotes"
  | malformed problem => problem.message
  | unsplitAlternatives => "Rewrite was not fully split (this is a bug in the grammar reader)"
  | unexpectedBlankLine =>
    "Blank line encountered in rule parser (this is a bug in the grammar reader)"
  | unreadable fault => "File error: " ++ fault.message

end ParseForest
