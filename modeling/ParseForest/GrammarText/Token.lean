import ParseForest.GrammarText.Fault
import ParseForest.Text.WhiteSpace

/-! # Tokens of a grammar line

A line consists of equals signs (`=` or `->`), bars, quoted terminals and names.  A quote is
closed by the same character that opened it.  A name goes on until white space, a bar, an
equals sign of either spelling, a quote or the end of the line; a hyphen alone belongs to it.
White space separates, and means nothing else. -/

namespace ParseForest

/-- A unit of a grammar line. -/
inductive Token where
  | equals
  | bar
  | nonterminal (name : String)
  | terminal (text : String)
deriving DecidableEq, Repr

namespace Token

/-- The two characters that quote a terminal. -/
def isQuote (c : Char) : Bool :=
  c = '"' || c = '\''

/-- Whether the characters begin with the arrow `->`. -/
def startsArrow : List Char → Bool
  | '-' :: '>' :: _ => true
  | _ => false

/-- Whether a name cannot go on into these characters. -/
def endsName : List Char → Bool
  | [] => true
  | c :: cs => Text.isWhiteSpace c || c = '|' || c = '=' || isQuote c || startsArrow (c :: cs)

/-- The name at the beginning, perhaps empty, and the characters behind it. -/
def takeName : List Char → List Char × List Char
  | [] => ([], [])
  | c :: cs =>
    if endsName (c :: cs) then ([], c :: cs)
    else
      let taken := takeName cs
      (c :: taken.1, taken.2)

/-- The text up to a closing quote and the characters behind that quote, if it is closed. -/
def takeQuoted (quote : Char) : List Char → Option (List Char × List Char)
  | [] => none
  | c :: cs => if c = quote then some ([], cs) else (takeQuoted quote cs).map (Prod.map (c :: ·) id)

theorem length_takeName (cs : List Char) : (takeName cs).2.length ≤ cs.length := by
  induction cs with
  | nil => simp [takeName]
  | cons c cs ih =>
    unfold takeName
    split
    · simp
    · simpa using Nat.le_succ_of_le ih

theorem length_takeQuoted {quote : Char} {cs text rest : List Char}
    (h : takeQuoted quote cs = some (text, rest)) : rest.length < cs.length := by
  induction cs generalizing text rest with
  | nil => simp [takeQuoted] at h
  | cons c cs ih =>
    unfold takeQuoted at h
    split at h
    · simp_all
    · obtain ⟨⟨text', rest'⟩, hq, he⟩ := Option.map_eq_some_iff.1 h
      simp only [Prod.map, id, Prod.mk.injEq] at he
      have := ih hq
      rw [List.length_cons, ← he.2]
      omega

/-! ### Single tokens -/

/-- The name at the beginning of some characters, as a token, and what is behind it. -/
def readName (cs : List Char) : Token × List Char :=
  (.nonterminal (String.ofList (takeName cs).1), (takeName cs).2)

/-- The terminal at the beginning of some characters, whatever its first character, which counts as
the quote; and what is behind it.  Without any characters the terminal is empty. -/
def readTerminal : List Char → Option (Token × List Char)
  | [] => some (.terminal "", [])
  | quote :: cs =>
    (takeQuoted quote cs).map fun taken => (.terminal (String.ofList taken.1), taken.2)

/-! ### Lines -/

/-- The tokens of a line given as characters, or `none` if a quote is not closed. -/
def ofChars? : List Char → Option (List Token)
  | [] => some []
  | c :: cs =>
    if Text.isWhiteSpace c then ofChars? cs
    else if c = '=' then (ofChars? cs).map (.equals :: ·)
    else if startsArrow (c :: cs) then (ofChars? cs.tail).map (.equals :: ·)
    else if c = '|' then (ofChars? cs).map (.bar :: ·)
    else if isQuote c then
      match _h : takeQuoted c cs with
      | none => none
      | some (text, rest) => (ofChars? rest).map (.terminal (String.ofList text) :: ·)
    else
      let taken := takeName cs
      (ofChars? taken.2).map (.nonterminal (String.ofList (c :: taken.1)) :: ·)
termination_by cs => cs.length
decreasing_by
  all_goals simp only [List.length_cons]
  · omega
  · omega
  · have := List.length_tail (l := cs)
    omega
  · omega
  · have := length_takeQuoted _h
    omega
  · have := length_takeName cs
    omega

/-- The tokens of a line. -/
def ofLine (line : String) : Except Fault (List Token) :=
  match ofChars? line.toList with
  | none => .error .unmatchedQuote
  | some tokens => .ok tokens

end Token

end ParseForest
