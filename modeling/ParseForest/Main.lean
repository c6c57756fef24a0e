import ParseForest.CommandLine.Run

/-! # The program

Reads the grammar file that the command line names, runs the command line, and writes the
transcript. -/

namespace ParseForest

/-- The bytes of a file, or why they cannot be read. -/
def readFile (path : String) : IO (Except ReadFault ByteArray) := do
  try
    return .ok (← IO.FS.readBinFile path)
  catch
    | .noFileOrDirectory .. => return .error .noSuchFile
    | failure => return .error (.other (toString failure))

/-- The greatest random word. -/
def greatestWord : Nat :=
  4294967295

/-- The number of random words on the tape of one sentence. -/
def tapeLength : Nat :=
  4096

/-- A tape of random words from a generator. -/
def randomTape : (length : Nat) → StdGen → List Nat
  | 0, _ => []
  | length + 1, generator =>
    let drawn := randNat generator 0 greatestWord
    drawn.1 :: randomTape length drawn.2

/-- What the path of the grammar file leads to, if a command line names one. -/
def filesFor (words : List String) : IO Files := do
  match CommandLine.Options.ofWords words with
  | .ok { grammarFile := some file, .. } =>
    let content ← readFile file
    return fun path => if path = file then content else .error .noSuchFile
  | _ => return fun _ => .error .noSuchFile

end ParseForest

open ParseForest in
/-- Runs the program on the words of its command line. -/
def main (words : List String) : IO UInt32 := do
  let files ← filesFor words
  let seed ← IO.rand 0 greatestWord
  let tapes := fun number => randomTape tapeLength (mkStdGen (seed + number))
  let transcript := CommandLine.execute files tapes words
  IO.print (CommandLine.Transcript.stream transcript.output)
  IO.eprint (CommandLine.Transcript.stream transcript.errors)
  return transcript.exit.toUInt32
