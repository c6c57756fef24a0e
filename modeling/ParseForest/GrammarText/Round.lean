import ParseForest.GrammarText.Token

/-! # Reading a line in rounds

A line is read in rounds.  Each takes one character of white space or one lexeme from the front of what is
left, and adds its token.  Reading ends when nothing is left, or at a quote that is not closed. -/

namespace ParseForest.Token

/-- What a round takes from the front of a line that is not empty: a token, or none for white space, and
the characters behind it.  A quote that is not closed cannot be taken. -/
def takeLexeme? (c : Char) (cs : List Char) : Option (Option Token × List Char) :=
  if Text.isWhiteSpace c then some (none, cs)
  else if c = '=' then some (some .equals, cs)
  else if startsArrow (c :: cs) then some (some .equals, cs.tail)
  else if c = '|' then some (some .bar, cs)
  else if isQuote c then (readTerminal (c :: cs)).map (Prod.map some id)
  else some (Prod.map some id (readName (c :: cs)))

/-- Reading some characters comes to an end, with this result, after the given number of rounds. -/
inductive Rounds : Nat → List Char → Except Fault (List Token) → Prop
  | finish : Rounds 0 [] (.ok [])
  | fault {c : Char} {cs : List Char} :
      takeLexeme? c cs = none → Rounds 1 (c :: cs) (.error .unmatchedQuote)
  | next {c : Char} {cs rest : List Char} {token : Option Token} {rounds : Nat}
      {result : Except Fault (List Token)} :
      takeLexeme? c cs = some (token, rest) → Rounds rounds rest result →
      Rounds (rounds + 1) (c :: cs) (result.map (token.toList ++ ·))

end ParseForest.Token
