import ParseForest.Proofs.GrammarText.Scan

/-! # White space between lexemes

A character of white space outside quotes divides a line: its two sides are spelled one after the other
(`Spells.append_space`), since no name, no arrow and no quoted text goes on over it.  A quote that is open
at the end of the line was opened behind it (`openQuote_append`).  So a line whose left side can be read has
the tokens of both sides, or fails as its right side does (`ofLine_push_append`).

White space at the ends of a line does not count at all (`ofLine_surrounded`), and between lexemes it does
not matter how much there is (`ofLine_parted`). -/

namespace ParseForest

/-- The text is white space, or empty. -/
def Text.IsBlank (text : String) : Prop :=
  ∀ c ∈ text.toList, Text.isWhiteSpace c = true

instance (text : String) : Decidable (Text.IsBlank text) :=
  List.decidableBAll _ text.toList

theorem Text.isBlank_empty : Text.IsBlank "" :=
  fun _ h => absurd h List.not_mem_nil

namespace Token

variable {quote c : Char} {cs blank rest : List Char} {tokens later : List Token}

/-! ### Quotes -/

theorem openQuote_append (quote? : Option Char) (cs rest : List Char) :
    openQuote quote? (cs ++ rest) = openQuote (openQuote quote? cs) rest := by
  induction cs generalizing quote? with
  | nil => cases quote? <;> rfl
  | cons c cs ih => cases quote? <;> exact ih _

theorem isQuote_of_openQuote (h : openQuote none cs = some quote) : isQuote quote = true := by
  have hopen : ∀ quote?, (∀ opened, quote? = some opened → isQuote opened = true) →
      openQuote quote? cs = some quote → isQuote quote = true := by
    clear h
    induction cs with
    | nil => exact fun quote? hquote h => hquote quote h
    | cons c cs ih =>
        intro quote? hquote h
        cases quote? with
        | none =>
            refine ih _ (fun opened heq => ?_) h
            split at heq
            · rename_i hc
              exact Option.some.inj heq ▸ hc
            · exact absurd heq nofun
        | some opened =>
            refine ih _ (fun other heq => ?_) h
            split at heq
            · exact absurd heq nofun
            · exact hquote other heq
  exact hopen none nofun h

theorem openQuote_append_blank (hblank : ∀ c ∈ blank, Text.isWhiteSpace c = true) :
    openQuote none (cs ++ blank) = openQuote none cs := by
  rw [openQuote_append]
  cases hopen : openQuote none cs with
  | none =>
      have h : openQuote none (blank ++ []) = none :=
        openQuote_unquoted fun c hc => isQuote_eq_false_of_space (hblank c hc)
      rwa [List.append_nil] at h
  | some quote =>
      refine openQuote_of_not_mem fun hmem => ?_
      have hquote := isQuote_of_openQuote hopen
      rw [isQuote_eq_false_of_space (hblank quote hmem)] at hquote
      exact Bool.false_ne_true hquote

/-! ### Lexemes -/

theorem endsName_append_space (h : endsName cs = true) (hspace : Text.isWhiteSpace c = true) :
    endsName (cs ++ c :: rest) = true := by
  cases cs with
  | nil => simp only [List.nil_append, endsName, hspace, Bool.true_or]
  | cons d ds =>
      simp only [List.cons_append, endsName, Bool.or_eq_true, startsArrow_iff] at h ⊢
      refine h.imp_right fun harrow => ⟨harrow.1, ?_⟩
      rw [List.head?_append, harrow.2, Option.some_or]

/-- **The two sides of white space are spelled one after the other.** -/
theorem Spells.append_space (h : Spells cs tokens) (hspace : Text.isWhiteSpace c = true)
    (hrest : Spells rest later) : Spells (cs ++ c :: rest) (tokens ++ later) := by
  induction h with
  | done => exact .space hspace hrest
  | space hfirst _ ih => exact .space hfirst ih
  | equals _ ih => exact .equals ih
  | arrow _ ih => exact .arrow ih
  | bar _ ih => exact .bar ih
  | terminal hquote hnot _ ih =>
      have hspelled := Spells.terminal hquote hnot ih
      simpa only [List.append_assoc, List.cons_append] using hspelled
  | nonterminal hne hname hends _ ih =>
      rw [List.append_assoc]
      exact .nonterminal hne hname (endsName_append_space hends hspace) ih

theorem Spells.blank_append (hblank : ∀ c ∈ blank, Text.isWhiteSpace c = true)
    (h : Spells cs tokens) : Spells (blank ++ cs) tokens := by
  induction blank with
  | nil => exact h
  | cons c blank ih =>
      obtain ⟨hc, hrest⟩ := List.forall_mem_cons.mp hblank
      exact .space hc (ih hrest)

theorem Spells.append_blank (h : Spells cs tokens)
    (hblank : ∀ c ∈ blank, Text.isWhiteSpace c = true) : Spells (cs ++ blank) tokens := by
  cases blank with
  | nil => rwa [List.append_nil]
  | cons c blank =>
      obtain ⟨hc, hrest⟩ := List.forall_mem_cons.mp hblank
      have hnone : Spells blank [] := by
        rw [← List.append_nil blank]
        exact Spells.blank_append hrest .done
      rw [← List.append_nil tokens]
      exact h.append_space hc hnone

/-! ### Lines -/

variable {line before after gap : String}

theorem exists_ofLine_iff : (∃ tokens, ofLine line = .ok tokens) ↔ openQuote none line.toList = none := by
  constructor
  · rintro ⟨tokens, htokens⟩
    by_contra hopen
    rw [ofLine_eq_error_iff_openQuote.mpr ⟨rfl, hopen⟩] at htokens
    exact absurd htokens nofun
  · intro hclosed
    cases hline : ofLine line with
    | ok tokens => exact ⟨tokens, rfl⟩
    | error fault => exact absurd hclosed (ofLine_eq_error_iff_openQuote.mp hline).2

theorem ofLine_push_append {space : Char} (hspace : Text.isWhiteSpace space = true)
    (hbefore : ofLine before = .ok tokens) :
    ofLine (before.push space ++ after) = (ofLine after).map (tokens ++ ·) := by
  have hchars : (before.push space ++ after).toList = before.toList ++ space :: after.toList := by
    rw [String.toList_append, String.toList_push, List.append_assoc, List.singleton_append]
  cases hafter : ofLine after with
  | ok later =>
      rw [ofLine_eq_ok_iff_spells] at hbefore hafter
      refine ofLine_eq_ok_iff_spells.mpr ?_
      rw [hchars]
      exact hbefore.append_space hspace hafter
  | error fault =>
      obtain ⟨rfl, hopen⟩ := ofLine_eq_error_iff_openQuote.mp hafter
      refine ofLine_eq_error_iff_openQuote.mpr ⟨rfl, ?_⟩
      rw [hchars, openQuote_append, exists_ofLine_iff.mp ⟨tokens, hbefore⟩,
        (Takes.space hspace).openQuote_eq]
      exact hopen

/-- **White space at the ends of a line does not count.** -/
theorem ofLine_surrounded (hbefore : Text.IsBlank before) (hafter : Text.IsBlank after) (line : String) :
    ofLine (before ++ line ++ after) = ofLine line := by
  have hchars : (before ++ line ++ after).toList = before.toList ++ (line.toList ++ after.toList) := by
    rw [String.toList_append, String.toList_append, List.append_assoc]
  cases hline : ofLine line with
  | ok tokens =>
      rw [ofLine_eq_ok_iff_spells] at hline ⊢
      rw [hchars]
      exact Spells.blank_append hbefore (hline.append_blank hafter)
  | error fault =>
      obtain ⟨rfl, hopen⟩ := ofLine_eq_error_iff_openQuote.mp hline
      refine ofLine_eq_error_iff_openQuote.mpr ⟨rfl, ?_⟩
      rw [hchars, openQuote_unquoted fun c hc => isQuote_eq_false_of_space (hbefore c hc),
        openQuote_append_blank hafter]
      exact hopen

/-- White space outside quotes stands between the tokens of its two sides, however much there is. -/
theorem ofLine_parted (hne : gap ≠ "") (hgap : Text.IsBlank gap)
    (hbefore : ofLine before = .ok tokens) :
    ofLine (before ++ gap ++ after) = (ofLine after).map (tokens ++ ·) := by
  obtain ⟨space, spaces, hchars⟩ := List.exists_cons_of_ne_nil (mt String.toList_eq_nil_iff.mp hne)
  unfold Text.IsBlank at hgap
  rw [hchars, List.forall_mem_cons] at hgap
  have hspaces : Text.IsBlank (String.ofList spaces) := by
    unfold Text.IsBlank
    rw [String.toList_ofList]
    exact hgap.2
  have hline : before ++ gap ++ after = before.push space ++ (String.ofList spaces ++ after) := by
    rw [← String.toList_inj]
    simp [hchars]
  have hrest := ofLine_surrounded hspaces Text.isBlank_empty after
  rw [String.append_empty] at hrest
  rw [hline, ofLine_push_append hgap.1 hbefore, hrest]

/-- **Reading is compositional at white space.**  Behind a text that can be read and a character of white
space, a line fails exactly when the rest of it does, and otherwise has the tokens of both sides.  So white
space at the ends of a line that can be read changes no token, and neither does more of it, or other, where
it stands outside quotes: there it parts the tokens of its two sides. -/
theorem ofLine_compositional :
    (∀ (before after : String) (space : Char) (tokens : List Token),
      Text.isWhiteSpace space = true → ofLine before = .ok tokens →
      (∀ fault, ofLine (before.push space ++ after) = .error fault ↔ ofLine after = .error fault) ∧
      ∀ later, ofLine after = .ok later →
        ofLine (before.push space ++ after) = .ok (tokens ++ later)) ∧
    (∀ (before line after : String) (tokens : List Token),
      Text.IsBlank before → Text.IsBlank after → ofLine line = .ok tokens →
      ofLine (before ++ line ++ after) = .ok tokens) ∧
    ∀ (before gap wider after : String) (tokens : List Token),
      gap ≠ "" → Text.IsBlank gap → wider ≠ "" → Text.IsBlank wider →
      openQuote none before.toList = none → ofLine (before ++ gap ++ after) = .ok tokens →
      ofLine (before ++ wider ++ after) = .ok tokens ∧
      ∃ left right, ofLine before = .ok left ∧ ofLine after = .ok right ∧ tokens = left ++ right := by
  refine ⟨?_, ?_, ?_⟩
  · intro before after space tokens hspace hbefore
    rw [ofLine_push_append hspace hbefore]
    constructor
    · intro fault
      cases ofLine after <;> simp [Except.map]
    · intro later hafter
      rw [hafter]
      rfl
  · intro before line after tokens hbefore hafter hline
    rw [ofLine_surrounded hbefore hafter, hline]
  · intro before gap wider after tokens hne hgap hwne hwider hclosed hline
    obtain ⟨left, hbefore⟩ := exists_ofLine_iff.mpr hclosed
    rw [ofLine_parted hne hgap hbefore] at hline
    rw [ofLine_parted hwne hwider hbefore, hline]
    cases hafter : ofLine after with
    | error fault =>
        rw [hafter] at hline
        exact absurd hline nofun
    | ok right =>
        rw [hafter] at hline
        exact ⟨rfl, left, right, hbefore, rfl, (Except.ok.inj hline).symm⟩

/-- A hyphen and a bracket with white space between them make no arrow, an open quote behind white space
stays open, and white space inside quotes is left as it is. -/
theorem ofLine_compositional_samples :
    ofLine ("a-".push ' ' ++ ">b") = .ok [.nonterminal "a-", .nonterminal ">b"] ∧
    ofLine ("a-".push ' ' ++ "'b") = .error .unmatchedQuote ∧
    ofLine ("\t" ++ "S->'a b'" ++ "\u3000\r") = .ok [.nonterminal "S", .equals, .terminal "a b"] ∧
    ofLine ("S ->" ++ "\u00a0 \n" ++ "'a b'|") =
      .ok [.nonterminal "S", .equals, .terminal "a b", .bar] := by
  obtain ⟨hspace, hends, hgap⟩ := ofLine_compositional
  have hhyphen : ofLine "a-" = .ok [.nonterminal "a-"] := by decide +kernel
  refine ⟨?_, ?_, ?_, ?_⟩
  · exact (hspace "a-" ">b" ' ' _ (by decide) hhyphen).2 [.nonterminal ">b"] (by decide +kernel)
  · exact ((hspace "a-" "'b" ' ' _ (by decide) hhyphen).1 .unmatchedQuote).mpr (by decide +kernel)
  · exact hends "\t" "S->'a b'" "\u3000\r" _ (by decide) (by decide) (by decide +kernel)
  · exact (hgap "S ->" " " "\u00a0 \n" "'a b'|" _ (by decide) (by decide) (by decide) (by decide)
      (by decide) (by decide +kernel)).1

end Token

end ParseForest
