import ParseForest.Grammar.WellFormed
import ParseForest.GrammarText.RuleLine
import ParseForest.GrammarText.Written
import ParseForest.Proofs.GrammarText.Clause
import ParseForest.Proofs.GrammarText.Lexeme
import ParseForest.Proofs.Text.Line

/-! # A written rule is read back

Each piece of a written line spells its tokens in front of whatever ends a name (`Spelled`), and
between two pieces there is white space, so the pieces can be joined (`spelled_intercalate`): symbols to
an alternative, alternatives to a right-hand side.  Tokens divide at the bars into the alternatives they
came from (`splitOn_rightHandTokens`), and so the line states its rule (`ofLine_of_writes`).

A written line is one line of its text too (`WritesRule.isLine`), and is not taken for a comment
(`WritesRule.isRuleLine`). -/

namespace ParseForest.GrammarText

open Text (IsLine)

/-- A symbol that can be written. -/
def IsWritable : Symbol → Prop
  | .nonterminal name => IsName name
  | .terminal text => IsQuotable text

/-- A rule that can be written. -/
structure WritableRule (rule : Rule) : Prop where
  name : IsName rule.name
  alternatives_ne_nil : rule.alternatives ≠ []
  symbols : ∀ alternative ∈ rule.alternatives, ∀ symbol ∈ alternative, IsWritable symbol

theorem Writable.rule {g : Grammar} (hw : Writable g) (hg : g.WellFormed) {rule : Rule}
    (h : rule ∈ g.rules) : WritableRule rule := by
  refine ⟨hw.1 rule.name (List.mem_map.mpr ⟨rule, h, rfl⟩), hg.alternatives_ne_nil rule h, ?_⟩
  intro alternative halternative symbol hsymbol
  have hmem : symbol ∈ g.rightHandSymbols :=
    List.mem_flatMap.mpr ⟨rule, h, List.mem_flatten.mpr ⟨alternative, halternative, hsymbol⟩⟩
  cases symbol with
  | nonterminal name => exact hw.1 name (hg.closed name (List.mem_filterMap.mpr ⟨_, hmem, rfl⟩))
  | terminal text => exact hw.2 text (List.mem_filterMap.mpr ⟨_, hmem, rfl⟩)

/-! ### Tokens of what is written -/

/-- The token of a symbol. -/
def symbolToken : Symbol → Token
  | .nonterminal name => .nonterminal name
  | .terminal text => .terminal text

/-- The tokens of an alternative. -/
def alternativeTokens : Alternative → List Token
  | [] => [.terminal ""]
  | symbol :: rest => (symbol :: rest).map symbolToken

/-- The tokens of a right-hand side. -/
def rightHandTokens (alternatives : List Alternative) : List Token :=
  [.bar].intercalate (alternatives.map alternativeTokens)

/-- A piece of a line that spells some tokens in front of whatever ends a name. -/
def Spelled (ts : List Token) (piece : List Char) : Prop :=
  ∀ cs tokens, Token.endsName cs = true → Token.Spells cs tokens →
    Token.Spells (piece ++ cs) (ts ++ tokens)

theorem spelled_intercalate {sep : List Char} {between : List Token}
    (hsep : ∀ cs tokens, Token.Spells cs tokens →
      Token.endsName (sep ++ cs) = true ∧ Token.Spells (sep ++ cs) (between ++ tokens))
    {groups : List (List Token)} {pieces : List (List Char)} (h : List.Forall₂ Spelled groups pieces)
    (hne : pieces ≠ []) : Spelled (between.intercalate groups) (sep.intercalate pieces) := by
  induction h with
  | nil => exact absurd rfl hne
  | @cons group piece groups pieces hpiece hpieces ih =>
      by_cases hnil : pieces = []
      · subst hnil
        obtain rfl := List.forall₂_nil_right_iff.mp hpieces
        rw [List.intercalate_singleton, List.intercalate_singleton]
        exact hpiece
      · have hgroups : groups ≠ [] := by
          rintro rfl
          exact hnil (List.forall₂_nil_left_iff.mp hpieces)
        intro cs tokens hcs hspells
        obtain ⟨hends, hrest⟩ := hsep _ _ (ih hnil cs tokens hcs hspells)
        have hall := hpiece _ _ hends hrest
        rw [List.intercalate_cons_of_ne_nil hnil, List.intercalate_cons_of_ne_nil hgroups]
        simpa only [List.append_assoc] using hall

section

variable {α : Type} {writes : α → String → Prop} {items : List α} {pieces : List String}

theorem map_toList_ne_nil (h : List.Forall₂ writes items pieces) (hne : items ≠ []) :
    pieces.map String.toList ≠ [] := by
  intro hnil
  rw [List.map_eq_nil_iff.mp hnil, List.forall₂_nil_right_iff] at h
  exact hne h

theorem forall_pieces (h : List.Forall₂ writes items pieces) {property : String → Prop}
    (hitem : ∀ a ∈ items, ∀ piece, writes a piece → property piece) :
    ∀ piece ∈ pieces, property piece := by
  induction h with
  | nil => exact fun piece hmem => absurd hmem List.not_mem_nil
  | cons hpiece _ ih =>
      obtain ⟨hfirst, hrest⟩ := List.forall_mem_cons.mp hitem
      exact List.forall_mem_cons.mpr ⟨hfirst _ hpiece, ih hrest⟩

/-- Items joined by a separator spell their tokens, one after the other. -/
theorem spelled_items {tokens : α → List Token} {sep : String} {between : List Token}
    (h : List.Forall₂ writes items pieces) (hne : items ≠ [])
    (hitem : ∀ a ∈ items, ∀ piece, writes a piece → Spelled (tokens a) piece.toList)
    (hsep : ∀ cs rest, Token.Spells cs rest → Token.endsName (sep.toList ++ cs) = true ∧
      Token.Spells (sep.toList ++ cs) (between ++ rest)) :
    Spelled (between.intercalate (items.map tokens)) (sep.intercalate pieces).toList := by
  have hgroups : List.Forall₂ Spelled (items.map tokens) (pieces.map String.toList) := by
    rw [List.forall₂_map_left_iff, List.forall₂_map_right_iff]
    refine ((List.forall₂_and_left _ _).mpr ⟨fun a ha => ha, h⟩).imp fun a piece hpiece => ?_
    exact hitem a hpiece.1 piece hpiece.2
  rw [String.toList_intercalate]
  exact spelled_intercalate hsep hgroups (map_toList_ne_nil h hne)

theorem isLine_items {sep : String} (h : List.Forall₂ writes items pieces) (hne : items ≠ [])
    (hitem : ∀ a ∈ items, ∀ piece, writes a piece → IsLine piece.toList) (hsep : '\n' ∉ sep.toList) :
    IsLine (sep.intercalate pieces).toList := by
  rw [String.toList_intercalate]
  exact Text.isLine_intercalate hsep (map_toList_ne_nil h hne)
    (List.forall_mem_map.mpr (forall_pieces h hitem))

end

theorem WritesSymbol.spelled {symbol : Symbol} {piece : String} (h : WritesSymbol symbol piece)
    (hs : IsWritable symbol) : Spelled [symbolToken symbol] piece.toList := by
  intro cs tokens hcs hspells
  cases symbol with
  | nonterminal name =>
      obtain rfl : piece = name := h
      have hne : piece.toList ≠ [] := fun hnil => hs.1 (String.toList_eq_nil_iff.mp hnil)
      have hname := Token.Spells.nonterminal hne hs.2.1 hcs hspells
      rwa [String.ofList_toList] at hname
  | terminal text =>
      obtain ⟨quote, hquote, htext, rfl⟩ := h
      have hterminal := Token.Spells.terminal hquote htext hspells
      rw [String.ofList_toList] at hterminal
      rw [String.toList_ofList, List.append_assoc, List.singleton_append]
      exact hterminal

theorem intercalate_symbolTokens (symbols : List Symbol) :
    ([] : List Token).intercalate (symbols.map fun symbol => [symbolToken symbol]) =
      symbols.map symbolToken := by
  induction symbols with
  | nil => rfl
  | cons symbol symbols ih =>
      by_cases hnil : symbols = []
      · subst hnil
        rfl
      · rw [List.map_cons, List.intercalate_cons_of_ne_nil (mt List.map_eq_nil_iff.mp hnil), ih]
        rfl

theorem WritesAlternative.spelled {alternative : Alternative} {piece : String}
    (h : WritesAlternative alternative piece) (hs : ∀ symbol ∈ alternative, IsWritable symbol) :
    Spelled (alternativeTokens alternative) piece.toList := by
  cases alternative with
  | nil =>
      obtain rfl : piece = "''" := h
      intro cs tokens _ hspells
      exact Token.Spells.terminal (by decide) List.not_mem_nil hspells
  | cons symbol rest =>
      obtain ⟨pieces, hpieces, rfl⟩ := h
      have hspace : ∀ cs tokens, Token.Spells cs tokens →
          Token.endsName (" ".toList ++ cs) = true ∧
            Token.Spells (" ".toList ++ cs) ([] ++ tokens) :=
        fun cs tokens hspells => ⟨rfl, .space (by decide) hspells⟩
      have hsymbols := spelled_items hpieces (List.cons_ne_nil symbol rest)
        (fun symbol hmem piece hpiece => hpiece.spelled (hs symbol hmem)) hspace
      rwa [intercalate_symbolTokens] at hsymbols

theorem WritesRule.spells {rule : Rule} {line : String} (h : WritesRule rule line)
    (hr : WritableRule rule) :
    Token.Spells line.toList
      (.nonterminal rule.name :: .equals :: rightHandTokens rule.alternatives) := by
  obtain ⟨pieces, hpieces, rfl⟩ := h
  have hbar : ∀ cs tokens, Token.Spells cs tokens →
      Token.endsName (" | ".toList ++ cs) = true ∧
        Token.Spells (" | ".toList ++ cs) ([.bar] ++ tokens) :=
    fun cs tokens hspells => ⟨rfl, .space (by decide) (.bar (.space (by decide) hspells))⟩
  have hright := spelled_items hpieces hr.alternatives_ne_nil
    (fun alternative hmem piece hpiece => hpiece.spelled (hr.symbols alternative hmem)) hbar
    [] [] rfl .done
  rw [List.append_nil, List.append_nil] at hright
  have harrow : Token.Spells (" -> ".toList ++ (" | ".intercalate pieces).toList)
      (.equals :: rightHandTokens rule.alternatives) :=
    .space (by decide) (.arrow (.space (by decide) hright))
  have hname : WritesSymbol (.nonterminal rule.name) rule.name := rfl
  rw [String.toList_append, String.toList_append, List.append_assoc]
  exact hname.spelled hr.name _ _ rfl harrow

/-! ### Tokens read back -/

theorem filterMap_symbolToken {symbols : List Symbol} (h : ∀ symbol ∈ symbols, IsWritable symbol) :
    (symbols.map symbolToken).filterMap Token.symbol? = symbols := by
  induction symbols with
  | nil => rfl
  | cons symbol symbols ih =>
      obtain ⟨hsymbol, hsymbols⟩ := List.forall_mem_cons.mp h
      have htoken : Token.symbol? (symbolToken symbol) = some symbol := by
        cases symbol with
        | nonterminal name => rfl
        | terminal text => exact if_neg hsymbol.1
      rw [List.map_cons, List.filterMap_cons_some htoken, ih hsymbols]

theorem filterMap_alternativeTokens {alternative : Alternative}
    (h : ∀ symbol ∈ alternative, IsWritable symbol) :
    (alternativeTokens alternative).filterMap Token.symbol? = alternative := by
  cases alternative with
  | nil => rfl
  | cons symbol rest => exact filterMap_symbolToken h

theorem ne_of_mem_alternativeTokens {alternative : Alternative} {token : Token}
    (h : token ∈ alternativeTokens alternative) : token ≠ .bar ∧ token ≠ .equals := by
  cases alternative with
  | nil =>
      rw [List.mem_singleton.mp h]
      decide
  | cons symbol rest =>
      obtain ⟨other, -, rfl⟩ := List.mem_map.mp h
      cases other <;> simp [symbolToken]

theorem splitOn_rightHandTokens {alternatives : List Alternative} (hne : alternatives ≠ []) :
    (rightHandTokens alternatives).splitOn .bar = alternatives.map alternativeTokens := by
  refine List.splitOn_intercalate Token.bar (List.forall_mem_map.mpr fun alternative _ => ?_) ?_
  · exact fun hbar => (ne_of_mem_alternativeTokens hbar).1 rfl
  · exact fun hnil => hne (List.map_eq_nil_iff.mp hnil)

theorem equals_not_mem_rightHandTokens {alternatives : List Alternative} (hne : alternatives ≠ []) :
    .equals ∉ rightHandTokens alternatives := by
  rw [← equals_mem_flatten_splitOn, splitOn_rightHandTokens hne, List.mem_flatten]
  rintro ⟨tokens, htokens, hequals⟩
  obtain ⟨alternative, -, rfl⟩ := List.mem_map.mp htokens
  exact (ne_of_mem_alternativeTokens hequals).2 rfl

/-- **A written line gives back its rule.** -/
theorem ofLine_of_writes {rule : Rule} {line : String} (h : WritesRule rule line)
    (hr : WritableRule rule) (location : Location) :
    RuleLine.ofLine location line = .ok ⟨rule.name, rule.alternatives, location⟩ := by
  have htokens : Token.ofLine line =
      .ok (.nonterminal rule.name :: .equals :: rightHandTokens rule.alternatives) :=
    Token.ofLine_eq_ok_iff.mpr (Token.ofChars?_of_spells (h.spells hr))
  have hequals := equals_not_mem_rightHandTokens hr.alternatives_ne_nil
  have hclause : Clause.ofLine? (line, 0) =
      some ⟨rule.name, rightHandTokens rule.alternatives, 0⟩ :=
    ofLine?_eq_some_iff.mpr ⟨htokens, hequals, rfl⟩
  have halternatives : ((rightHandTokens rule.alternatives).splitOn .bar).map
      (fun part => part.filterMap Token.symbol?) = rule.alternatives := by
    rw [splitOn_rightHandTokens hr.alternatives_ne_nil, List.map_map]
    refine (List.map_congr_left fun alternative hmem => ?_).trans (List.map_id _)
    exact filterMap_alternativeTokens (hr.symbols alternative hmem)
  rw [ofLine_of_clause hclause]
  unfold Clause.alternatives
  rw [halternatives]

/-! ### Lines -/

theorem IsName.isWhiteSpace_eq_false {name : String} (h : IsName name) {c : Char}
    (hc : c ∈ name.toList) : Text.isWhiteSpace c = false :=
  (h.2.1.1 c hc).1

theorem IsName.feed_not_mem {name : String} (h : IsName name) : '\n' ∉ name.toList := fun hmem =>
  absurd (h.isWhiteSpace_eq_false hmem) (by decide)

theorem IsName.isLine {name : String} (h : IsName name) : IsLine name.toList := by
  refine ⟨fun hnil => h.1 (String.toList_eq_nil_iff.mp hnil), h.feed_not_mem, fun hlast => ?_⟩
  exact absurd (h.isWhiteSpace_eq_false (List.mem_of_getLast? hlast)) (by decide)

theorem WritesSymbol.isLine {symbol : Symbol} {piece : String} (h : WritesSymbol symbol piece)
    (hs : IsWritable symbol) : IsLine piece.toList := by
  cases symbol with
  | nonterminal name =>
      obtain rfl : piece = name := h
      exact IsName.isLine hs
  | terminal text =>
      obtain ⟨quote, hquote, -, rfl⟩ := h
      have hline : '\n' ≠ quote ∧ IsLine [quote] := by
        unfold IsLine
        rcases Token.isQuote_iff.mp hquote with rfl | rfl <;> decide
      rw [String.toList_ofList]
      refine hline.2.append ?_
      rw [List.mem_cons, not_or]
      exact ⟨hline.1, hs.2.1⟩

theorem WritesAlternative.isLine {alternative : Alternative} {piece : String}
    (h : WritesAlternative alternative piece) (hs : ∀ symbol ∈ alternative, IsWritable symbol) :
    IsLine piece.toList := by
  cases alternative with
  | nil =>
      obtain rfl : piece = "''" := h
      unfold IsLine
      decide
  | cons symbol rest =>
      obtain ⟨pieces, hpieces, rfl⟩ := h
      exact isLine_items hpieces (List.cons_ne_nil symbol rest)
        (fun symbol hmem piece hpiece => hpiece.isLine (hs symbol hmem)) (by decide)

theorem WritesRule.isLine {rule : Rule} {line : String} (h : WritesRule rule line)
    (hr : WritableRule rule) : IsLine line.toList := by
  obtain ⟨pieces, hpieces, rfl⟩ := h
  have hright : IsLine (" | ".intercalate pieces).toList :=
    isLine_items hpieces hr.alternatives_ne_nil
      (fun alternative hmem piece hpiece => hpiece.isLine (hr.symbols alternative hmem)) (by decide)
  rw [String.toList_append, String.toList_append]
  refine hright.append ?_
  rw [List.mem_append, not_or]
  exact ⟨hr.name.feed_not_mem, by decide⟩

theorem WritesRule.isRuleLine {rule : Rule} {line : String} (h : WritesRule rule line)
    (hr : WritableRule rule) : RuleLine.isRuleLine line = true := by
  obtain ⟨pieces, -, rfl⟩ := h
  obtain ⟨c, rest, hname⟩ := List.exists_cons_of_ne_nil hr.name.isLine.1
  have hspace : Text.isWhiteSpace c = false := hr.name.isWhiteSpace_eq_false (hname ▸ List.mem_cons_self)
  have hsemicolon := hr.name.2.2.1
  have hhash := hr.name.2.2.2
  rw [hname, List.head?_cons] at hsemicolon hhash
  unfold RuleLine.isRuleLine Text.trimStart
  rw [String.toList_append, String.toList_append, hname, List.cons_append, List.cons_append,
    List.dropWhile_cons_of_neg (by rw [hspace]; exact Bool.false_ne_true)]
  simp only [Bool.and_eq_true, decide_eq_true_eq]
  exact ⟨fun hc => hsemicolon (congrArg some hc), fun hc => hhash (congrArg some hc)⟩

end ParseForest.GrammarText
