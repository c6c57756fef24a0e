/-! # Located reports

Where in a file something is wrong, and how it is shown on a terminal: the location in red and in
brackets, then the message. -/

namespace ParseForest

/-- A line of a file.  Lines are numbered from 1; line 0 stands for the file as a whole. -/
structure Location where
  file : String
  line : Nat
deriving DecidableEq, Repr

namespace Location

/-- The file as a whole. -/
def wholeFile (file : String) : Location :=
  ⟨file, 0⟩

/-- The file and the line, or the file alone. -/
def render (location : Location) : String :=
  if location.line = 0 then location.file
  else location.file ++ ":" ++ toString location.line

end Location

/-- Something wrong at a location. -/
structure Located (ε : Type) where
  location : Location
  fault : ε
deriving DecidableEq, Repr

namespace Report

/-- A message under a heading, in the colours of a failure. -/
def flagged (heading message : String) : String :=
  "\x1b[31;49;1m[" ++ heading ++ "]\x1b[39;49;1m  " ++ message ++ "\x1b[0m"

/-- A message about a location. -/
def atLocation (location : Location) (message : String) : String :=
  flagged location.render message

/-- A message about no location. -/
def banner (message : String) : String :=
  flagged "error" message

end Report

end ParseForest
