import ParseForest.GrammarText.Lexeme

/-! # What a line spells is what is read

A line that is white space and lexemes is read as the tokens of the lexemes, in order
(`ofChars?_of_spells`).  A name is taken to its end, since none of its characters ends it
(`endsName_eq_false`) and what follows does (`takeName_append`); a quoted text is taken up to the quote
that it does not contain (`takeQuoted_append`). -/

namespace ParseForest.Token

variable {c : Char} {name text cs : List Char}

theorem isQuote_iff : isQuote c = true ↔ c = '"' ∨ c = '\'' := by
  simp [isQuote]

theorem isQuote_eq_false_of_space (hspace : Text.isWhiteSpace c = true) : isQuote c = false := by
  rw [← Bool.not_eq_true, isQuote_iff]
  rintro (rfl | rfl) <;> exact absurd hspace (by decide)

/-! ### Names -/

theorem IsNamePart.tail (h : IsNamePart (c :: name)) : IsNamePart name := by
  refine ⟨fun d hd => h.1 d (List.mem_cons_of_mem c hd), fun harrow => ?_⟩
  exact h.2 (harrow.trans (List.suffix_cons c name).isInfix)

theorem startsArrow_iff : startsArrow (c :: cs) = true ↔ c = '-' ∧ cs.head? = some '>' := by
  cases cs with
  | nil => simp [startsArrow]
  | cons d ds =>
      unfold startsArrow
      split
      · simp_all
      · rename_i hother
        refine ⟨fun h => absurd h Bool.false_ne_true, ?_⟩
        rintro ⟨rfl, hhead⟩
        exact absurd (Option.some.inj hhead) fun hd => hother ds (hd ▸ rfl)

/-- A hyphen at the end of a name does not make an arrow with what follows the name. -/
theorem head?_ne_of_endsName (h : endsName cs = true) : cs.head? ≠ some '>' := by
  cases cs with
  | nil => exact nofun
  | cons d ds =>
      intro heq
      obtain rfl := Option.some.inj heq
      have hends : endsName ('>' :: ds) = false := rfl
      rw [hends] at h
      exact Bool.false_ne_true h

theorem endsName_eq_false (hname : IsNamePart (c :: name)) (hcs : endsName cs = true) :
    endsName (c :: (name ++ cs)) = false := by
  obtain ⟨hspace, hbar, hequals, hquote⟩ := hname.1 c List.mem_cons_self
  have harrow : startsArrow (c :: (name ++ cs)) = false := by
    rw [← Bool.not_eq_true, startsArrow_iff]
    rintro ⟨rfl, hhead⟩
    cases name with
    | nil => exact head?_ne_of_endsName hcs hhead
    | cons d ds =>
        obtain rfl := Option.some.inj hhead
        exact hname.2 (List.prefix_append ['-', '>'] ds).isInfix
  unfold endsName
  simp only [hspace, hbar, hequals, hquote, harrow, decide_false, Bool.or_false]

theorem takeName_append (hname : IsNamePart name) (hcs : endsName cs = true) :
    takeName (name ++ cs) = (name, cs) := by
  induction name with
  | nil =>
      cases cs with
      | nil => rfl
      | cons d ds => rw [List.nil_append, takeName, if_pos hcs]
  | cons c name ih =>
      have hends := endsName_eq_false hname hcs
      rw [List.cons_append, takeName, hends, if_neg Bool.false_ne_true, ih hname.tail]

/-! ### Quoted texts -/

theorem takeQuoted_append {quote : Char} (h : quote ∉ text) :
    takeQuoted quote (text ++ quote :: cs) = some (text, cs) := by
  induction text with
  | nil => rw [List.nil_append, takeQuoted, if_pos rfl]
  | cons d text ih =>
      rw [List.mem_cons, not_or] at h
      rw [List.cons_append, takeQuoted, if_neg (Ne.symm h.1), ih h.2]
      rfl

/-! ### Lines -/

theorem ofChars?_space (hspace : Text.isWhiteSpace c = true) : ofChars? (c :: cs) = ofChars? cs := by
  rw [ofChars?, if_pos hspace]

theorem ofChars?_equals : ofChars? ('=' :: cs) = (ofChars? cs).map (.equals :: ·) := by
  rw [ofChars?, if_neg (by decide), if_pos rfl]

theorem ofChars?_arrow : ofChars? ('-' :: '>' :: cs) = (ofChars? cs).map (.equals :: ·) := by
  have harrow : startsArrow ('-' :: '>' :: cs) = true := rfl
  rw [ofChars?, if_neg (by decide), if_neg (by decide), if_pos harrow, List.tail_cons]

theorem ofChars?_bar : ofChars? ('|' :: cs) = (ofChars? cs).map (.bar :: ·) := by
  have harrow : ¬startsArrow ('|' :: cs) = true := by
    rw [startsArrow_iff]
    exact fun h => absurd h.1 (by decide)
  rw [ofChars?, if_neg (by decide), if_neg (by decide), if_neg harrow, if_pos rfl]

theorem ofChars?_name (h : endsName (c :: cs) = false) :
    ofChars? (c :: cs) =
      (ofChars? (takeName cs).2).map (.nonterminal (String.ofList (c :: (takeName cs).1)) :: ·) := by
  simp only [endsName, Bool.or_eq_false_iff, decide_eq_false_iff_not] at h
  obtain ⟨⟨⟨⟨hspace, hbar⟩, hequals⟩, hquote⟩, harrow⟩ := h
  rw [ofChars?]
  simp only [hspace, hbar, hequals, hquote, harrow, if_false, Bool.false_eq_true]

theorem ofChars?_quote {quote : Char} (hquote : isQuote quote = true) :
    ofChars? (quote :: cs) = (takeQuoted quote cs).bind fun taken =>
      (ofChars? taken.2).map (.terminal (String.ofList taken.1) :: ·) := by
  have hother : Text.isWhiteSpace quote = false ∧ quote ≠ '=' ∧ quote ≠ '-' ∧ quote ≠ '|' := by
    rcases isQuote_iff.mp hquote with rfl | rfl <;> decide
  obtain ⟨hspace, hequals, hhyphen, hbar⟩ := hother
  have harrow : startsArrow (quote :: cs) = false := by
    rw [← Bool.not_eq_true, startsArrow_iff]
    exact fun h => hhyphen h.1
  rw [ofChars?]
  simp only [hspace, hequals, harrow, hbar, hquote, if_false, if_true, Bool.false_eq_true]
  cases takeQuoted quote cs <;> rfl

theorem ofChars?_quoted {quote : Char} (hquote : isQuote quote = true) (htext : quote ∉ text) :
    ofChars? (quote :: text ++ quote :: cs) =
      (ofChars? cs).map (.terminal (String.ofList text) :: ·) := by
  rw [List.cons_append, ofChars?_quote hquote, takeQuoted_append htext, Option.bind_some]

/-- **The tokens that a line spells are read from it.** -/
theorem ofChars?_of_spells {tokens : List Token} (h : Spells cs tokens) :
    ofChars? cs = some tokens := by
  induction h with
  | done => rw [ofChars?]
  | space hspace _ ih => rw [ofChars?_space hspace, ih]
  | equals _ ih => rw [ofChars?_equals, ih, Option.map_some]
  | arrow _ ih => rw [ofChars?_arrow, ih, Option.map_some]
  | bar _ ih => rw [ofChars?_bar, ih, Option.map_some]
  | terminal hquote htext _ ih => rw [ofChars?_quoted hquote htext, ih, Option.map_some]
  | @nonterminal name cs tokens hne hname hends _ ih =>
      obtain ⟨c, name, rfl⟩ := List.exists_cons_of_ne_nil hne
      rw [List.cons_append, ofChars?_name (endsName_eq_false hname hends),
        takeName_append hname.tail hends, ih, Option.map_some]

end ParseForest.Token
