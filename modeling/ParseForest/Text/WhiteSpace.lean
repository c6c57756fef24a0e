/-! # White space

The characters with the Unicode property `White_Space`, and the three readings of a text that
depend on them: its words, its beginning trimmed and its end trimmed.  Texts are handled as
lists of characters, with a version on strings where one is needed.

`spaced` is the way back from words to a text: the words with one space between them. -/

namespace ParseForest.Text

/-- The ranges of code points with the property `White_Space`, in increasing order. -/
def whiteSpaceRanges : List (Nat × Nat) :=
  [(0x09, 0x0D), (0x20, 0x20), (0x85, 0x85), (0xA0, 0xA0), (0x1680, 0x1680), (0x2000, 0x200A),
    (0x2028, 0x2029), (0x202F, 0x202F), (0x205F, 0x205F), (0x3000, 0x3000)]

/-- Whether a character is white space. -/
def isWhiteSpace (c : Char) : Bool :=
  whiteSpaceRanges.any fun range => range.1 ≤ c.toNat && c.toNat ≤ range.2

/-- The words of a list of characters: the non-empty pieces between white space. -/
def wordsOf (cs : List Char) : List (List Char) :=
  (cs.splitOnP isWhiteSpace).filter fun piece => !piece.isEmpty

/-- The words of a text. -/
def words (text : String) : List String :=
  (wordsOf text.toList).map String.ofList

/-- The given words with one space between neighbours. -/
def spaced (ws : List String) : String :=
  " ".intercalate ws

/-- Without the white space at the beginning. -/
def trimStart (cs : List Char) : List Char :=
  cs.dropWhile isWhiteSpace

/-- Without the white space at the end. -/
def trimEnd (cs : List Char) : List Char :=
  (cs.reverse.dropWhile isWhiteSpace).reverse

end ParseForest.Text
