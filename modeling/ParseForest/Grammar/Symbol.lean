/-! # Symbols

The units that grammar rules are written in: a terminal stands for one token, a nonterminal for
whatever its rule derives. -/

namespace ParseForest

/-- A terminal with its text, or a nonterminal with its name.  Either string may be empty. -/
inductive Symbol where
  | terminal (text : String)
  | nonterminal (name : String)
deriving DecidableEq, Repr

namespace Symbol

/-- The string a symbol is written as. -/
def text : Symbol → String
  | terminal text => text
  | nonterminal name => name

/-- The text of a terminal. -/
def terminal? : Symbol → Option String
  | terminal text => some text
  | nonterminal _ => none

/-- The name of a nonterminal. -/
def nonterminal? : Symbol → Option String
  | terminal _ => none
  | nonterminal name => some name

/-- Whether a symbol is a terminal. -/
def isTerminal (symbol : Symbol) : Bool :=
  symbol.terminal?.isSome

@[simp] theorem isTerminal_terminal (text : String) : (terminal text).isTerminal = true := rfl

@[simp] theorem isTerminal_nonterminal (name : String) : (nonterminal name).isTerminal = false := rfl

@[simp] theorem terminal?_eq_some {symbol : Symbol} {text : String} :
    symbol.terminal? = some text ↔ symbol = terminal text := by
  cases symbol <;> simp [terminal?]

@[simp] theorem nonterminal?_eq_some {symbol : Symbol} {name : String} :
    symbol.nonterminal? = some name ↔ symbol = nonterminal name := by
  cases symbol <;> simp [nonterminal?]

end Symbol

/-- The symbols on one right-hand side, possibly none. -/
abbrev Alternative := List Symbol

end ParseForest
