import ParseForest.GrammarText.Round
import ParseForest.Proofs.GrammarText.Clause
import ParseForest.Proofs.GrammarText.Lexeme

/-! # What is read is what a line spells

Reading goes in rounds, and `Token.Takes` says what one round can take from the front of a line: white
space, or a lexeme as it should be spelled (`takes_of_takeLexeme?`).  From this follows what each round
keeps: it shortens the line, what is spelled by the rest is spelled by the whole with one lexeme more, and
between two rounds no quote is open.  A round takes nothing only at a quote that is not closed
(`isQuote_of_takeLexeme?_eq_none`).

So reading ends after at most as many rounds as there are characters (`exists_rounds`), with the tokens
that the line spells, or because a quote is open at its end (`ofLine_exact`). -/

namespace ParseForest.Token

variable {quote c : Char} {text name cs rest : List Char}

/-! ### Quotes -/

theorem takeQuoted_eq_some_iff :
    takeQuoted quote cs = some (text, rest) ↔ quote ∉ text ∧ cs = text ++ quote :: rest := by
  constructor
  · intro h
    induction cs generalizing text with
    | nil => exact absurd h.symm (Option.some_ne_none _)
    | cons c cs ih =>
        rw [takeQuoted] at h
        split at h
        · rename_i hquote
          obtain ⟨rfl, rfl⟩ := Prod.mk.inj (Option.some.inj h)
          exact ⟨List.not_mem_nil, congrArg (· :: cs) hquote⟩
        · rename_i hother
          obtain ⟨⟨before, behind⟩, htaken, heq⟩ := Option.map_eq_some_iff.mp h
          obtain ⟨rfl, rfl⟩ := Prod.mk.inj heq
          obtain ⟨hnot, rfl⟩ := ih htaken
          exact ⟨List.not_mem_cons_of_ne_of_not_mem (Ne.symm hother) hnot, rfl⟩
  · rintro ⟨hnot, rfl⟩
    exact takeQuoted_append hnot

theorem takeQuoted_eq_none_iff : takeQuoted quote cs = none ↔ quote ∉ cs := by
  induction cs with
  | nil => exact ⟨fun _ => List.not_mem_nil, fun _ => rfl⟩
  | cons c cs ih =>
      rw [takeQuoted, List.mem_cons, not_or]
      split
      · rename_i hquote
        exact iff_of_false (Option.some_ne_none _) fun h => h.1 hquote.symm
      · rename_i hother
        rw [Option.map_eq_none_iff, ih]
        exact ⟨fun h => ⟨Ne.symm hother, h⟩, fun h => h.2⟩

theorem openQuote_of_not_mem (h : quote ∉ cs) : openQuote (some quote) cs = some quote := by
  induction cs with
  | nil => rfl
  | cons c cs ih =>
      rw [List.mem_cons, not_or] at h
      rw [openQuote, if_neg (Ne.symm h.1), ih h.2]

theorem openQuote_quoted (h : quote ∉ text) :
    openQuote (some quote) (text ++ quote :: cs) = openQuote none cs := by
  induction text with
  | nil => rw [List.nil_append, openQuote, if_pos rfl]
  | cons c text ih =>
      rw [List.mem_cons, not_or] at h
      rw [List.cons_append, openQuote, if_neg (Ne.symm h.1), ih h.2]

theorem openQuote_unquoted (h : ∀ c ∈ text, isQuote c = false) :
    openQuote none (text ++ cs) = openQuote none cs := by
  induction text with
  | nil => rfl
  | cons c text ih =>
      obtain ⟨hc, htext⟩ := List.forall_mem_cons.mp h
      rw [List.cons_append, openQuote, hc, if_neg Bool.false_ne_true, ih htext]

/-! ### Names -/

theorem isNamePart_nil : IsNamePart [] :=
  ⟨fun _ h => absurd h List.not_mem_nil, fun h => absurd (List.infix_nil.mp h) (List.cons_ne_nil _ _)⟩

theorem isNamePart_cons (hends : endsName (c :: (name ++ cs)) = false) (hname : IsNamePart name) :
    IsNamePart (c :: name) := by
  simp only [endsName, Bool.or_eq_false_iff, decide_eq_false_iff_not] at hends
  obtain ⟨⟨⟨⟨hspace, hbar⟩, hequals⟩, hquote⟩, harrow⟩ := hends
  refine ⟨List.forall_mem_cons.mpr ⟨⟨hspace, hbar, hequals, hquote⟩, hname.1⟩, fun h => ?_⟩
  rcases List.infix_cons_iff.mp h with hprefix | hinfix
  · -- an arrow at the front would have ended the name
    obtain ⟨later, hlater⟩ := hprefix
    obtain ⟨rfl, rfl⟩ := List.cons.inj hlater
    exact absurd rfl (ne_true_of_eq_false harrow)
  · exact hname.2 hinfix

theorem takeName_eq_iff :
    takeName cs = (name, rest) ↔ cs = name ++ rest ∧ IsNamePart name ∧ endsName rest = true := by
  constructor
  · intro h
    induction cs generalizing name with
    | nil =>
        obtain ⟨rfl, rfl⟩ := Prod.mk.inj h
        exact ⟨rfl, isNamePart_nil, rfl⟩
    | cons c cs ih =>
        rw [takeName] at h
        split at h
        · rename_i hends
          obtain ⟨rfl, rfl⟩ := Prod.mk.inj h
          exact ⟨rfl, isNamePart_nil, hends⟩
        · rename_i hends
          obtain ⟨rfl, hrest⟩ := Prod.mk.inj h
          obtain ⟨hcs, hname, hbehind⟩ := ih (Prod.ext rfl hrest)
          have hother : endsName (c :: ((takeName cs).1 ++ rest)) = false := by
            rw [← hcs]
            exact eq_false_of_ne_true hends
          exact ⟨congrArg (c :: ·) hcs, isNamePart_cons hother hname, hbehind⟩
  · rintro ⟨rfl, hname, hends⟩
    exact takeName_append hname hends

/-! ### What a round takes -/

/-- A round takes white space, or the lexeme of a token, from characters that begin with `c`. -/
inductive Takes : Char → List Char → Option Token → List Char → Prop
  | space {c : Char} {rest : List Char} : Text.isWhiteSpace c = true → Takes c rest none rest
  | equals {rest : List Char} : Takes '=' rest (some .equals) rest
  | arrow {rest : List Char} : Takes '-' ('>' :: rest) (some .equals) rest
  | bar {rest : List Char} : Takes '|' rest (some .bar) rest
  | terminal {quote : Char} {text rest : List Char} : isQuote quote = true → quote ∉ text →
      Takes quote (text ++ quote :: rest) (some (.terminal (String.ofList text))) rest
  | nonterminal {c : Char} {name rest : List Char} : IsNamePart (c :: name) → endsName rest = true →
      Takes c (name ++ rest) (some (.nonterminal (String.ofList (c :: name)))) rest

theorem takes_of_takeLexeme? {token : Option Token} (h : takeLexeme? c cs = some (token, rest)) :
    Takes c cs token rest := by
  rw [takeLexeme?] at h
  split_ifs at h with hspace hequals harrow hbar hquote
  · obtain ⟨rfl, rfl⟩ := Prod.mk.inj (Option.some.inj h)
    exact .space hspace
  · obtain ⟨rfl, rfl⟩ := Prod.mk.inj (Option.some.inj h)
    exact hequals ▸ .equals
  · obtain ⟨rfl, hhead⟩ := startsArrow_iff.mp harrow
    obtain ⟨behind, rfl⟩ := List.head?_eq_some_iff.mp hhead
    obtain ⟨rfl, rfl⟩ := Prod.mk.inj (Option.some.inj h)
    exact .arrow
  · obtain ⟨rfl, rfl⟩ := Prod.mk.inj (Option.some.inj h)
    exact hbar ▸ .bar
  · rw [readTerminal, Option.map_map, Option.map_eq_some_iff] at h
    obtain ⟨⟨text, behind⟩, htaken, heq⟩ := h
    obtain ⟨rfl, rfl⟩ := Prod.mk.inj heq
    obtain ⟨hnot, rfl⟩ := takeQuoted_eq_some_iff.mp htaken
    exact .terminal hquote hnot
  · obtain ⟨rfl, rfl⟩ := Prod.mk.inj (Option.some.inj h)
    have hends : endsName (c :: cs) = false := by
      simp only [endsName, hspace, hbar, hequals, hquote, harrow, decide_false, Bool.or_false]
    obtain ⟨name, behind, htaken⟩ : ∃ name behind, takeName cs = (name, behind) := ⟨_, _, rfl⟩
    have hfirst : takeName (c :: cs) = (c :: name, behind) := by
      rw [takeName, hends, if_neg Bool.false_ne_true, htaken]
    obtain ⟨rfl, hname, hbehind⟩ := takeName_eq_iff.mp htaken
    rw [hfirst]
    exact .nonterminal (isNamePart_cons hends hname) hbehind

theorem isQuote_of_takeLexeme?_eq_none (h : takeLexeme? c cs = none) : isQuote c = true ∧ c ∉ cs := by
  rw [takeLexeme?] at h
  split_ifs at h with hspace hequals harrow hbar hquote
  rw [readTerminal, Option.map_map, Option.map_eq_none_iff] at h
  exact ⟨hquote, takeQuoted_eq_none_iff.mp h⟩

namespace Takes

variable {token : Option Token} {tokens : List Token}

theorem length_le (h : Takes c cs token rest) : rest.length ≤ cs.length := by
  cases h with
  | space | equals | bar => exact Nat.le_refl _
  | arrow => exact Nat.le_succ _
  | terminal =>
      rw [List.length_append, List.length_cons]
      omega
  | nonterminal =>
      rw [List.length_append]
      exact Nat.le_add_left _ _

theorem ofChars?_eq (h : Takes c cs token rest) :
    ofChars? (c :: cs) = (ofChars? rest).map (token.toList ++ ·) := by
  cases h with
  | space hspace =>
      rw [ofChars?_space hspace]
      exact Option.map_id'.symm
  | equals => exact ofChars?_equals
  | arrow => exact ofChars?_arrow
  | bar => exact ofChars?_bar
  | terminal hquote hnot => exact ofChars?_quoted hquote hnot
  | nonterminal hname hends =>
      rw [ofChars?_name (endsName_eq_false hname hends), takeName_append hname.tail hends]
      rfl

theorem spells (h : Takes c cs token rest) (hrest : Spells rest tokens) :
    Spells (c :: cs) (token.toList ++ tokens) := by
  cases h with
  | space hspace => exact .space hspace hrest
  | equals => exact .equals hrest
  | arrow => exact .arrow hrest
  | bar => exact .bar hrest
  | terminal hquote hnot => exact .terminal hquote hnot hrest
  | nonterminal hname hends => exact .nonterminal (List.cons_ne_nil _ _) hname hends hrest

theorem openQuote_eq (h : Takes c cs token rest) : openQuote none (c :: cs) = openQuote none rest := by
  cases h with
  | space hspace => rw [openQuote, isQuote_eq_false_of_space hspace, if_neg Bool.false_ne_true]
  | equals | arrow | bar => rfl
  | terminal hquote hnot => rw [openQuote, if_pos hquote, openQuote_quoted hnot]
  | nonterminal hname =>
      rw [← List.cons_append]
      exact openQuote_unquoted fun d hd => (hname.1 d hd).2.2.2

end Takes

/-! ### Reading to the end -/

/-- The result of a line comes from that of what a round leaves. -/
theorem Takes.ofLine_eq {token : Option Token} (h : Takes c cs token rest) :
    ofLine (String.ofList (c :: cs)) = (ofLine (String.ofList rest)).map (token.toList ++ ·) := by
  unfold ofLine
  rw [String.toList_ofList, String.toList_ofList, h.ofChars?_eq]
  cases ofChars? rest <;> rfl

theorem ofLine_eq_error_of_takeLexeme? (h : takeLexeme? c cs = none) :
    ofLine (String.ofList (c :: cs)) = .error .unmatchedQuote := by
  obtain ⟨hquote, hopen⟩ := isQuote_of_takeLexeme?_eq_none h
  unfold ofLine
  rw [String.toList_ofList, ofChars?_quote hquote, takeQuoted_eq_none_iff.mpr hopen, Option.bind_none]

theorem exists_rounds_ofList (cs : List Char) :
    ∃ rounds ≤ cs.length, Rounds rounds cs (ofLine (String.ofList cs)) := by
  -- what a round leaves may be much shorter than the line, so the induction is on the length
  induction hlength : cs.length using Nat.strongRecOn generalizing cs with
  | ind length ih =>
      subst hlength
      cases cs with
      | nil =>
          refine ⟨0, Nat.le_refl 0, ?_⟩
          unfold ofLine
          rw [String.toList_ofList, ofChars?]
          exact .finish
      | cons c cs =>
          rw [List.length_cons] at *
          cases htaken : takeLexeme? c cs with
          | none =>
              refine ⟨1, Nat.le_add_left 1 _, ?_⟩
              rw [ofLine_eq_error_of_takeLexeme? htaken]
              exact .fault htaken
          | some taken =>
              obtain ⟨token, rest⟩ := taken
              have htakes := takes_of_takeLexeme? htaken
              obtain ⟨rounds, hrounds, hrest⟩ :=
                ih rest.length (Nat.lt_succ_of_le htakes.length_le) rest rfl
              refine ⟨rounds + 1, Nat.succ_le_succ (Nat.le_trans hrounds htakes.length_le), ?_⟩
              rw [htakes.ofLine_eq]
              exact .next htaken hrest

/-- Reading comes to its result after at most one round for each character. -/
theorem exists_rounds (line : String) :
    ∃ rounds ≤ line.toList.length, Rounds rounds line.toList (ofLine line) := by
  have h := exists_rounds_ofList line.toList
  rwa [String.ofList_toList] at h

namespace Rounds

variable {rounds : Nat} {tokens : List Token}

theorem spells (h : Rounds rounds cs (.ok tokens)) : Spells cs tokens := by
  generalize hresult : Except.ok tokens = result at h
  induction h generalizing tokens with
  | finish =>
      obtain rfl := Except.ok.inj hresult
      exact .done
  | fault => exact absurd hresult nofun
  | @next c cs rest token rounds result htaken _ ih =>
      cases result with
      | error => exact absurd hresult nofun
      | ok later =>
          obtain rfl := Except.ok.inj hresult
          exact (takes_of_takeLexeme? htaken).spells (ih rfl)

theorem isOk_iff {result : Except Fault (List Token)} (h : Rounds rounds cs result) :
    result.isOk = true ↔ openQuote none cs = none := by
  induction h with
  | finish => exact ⟨fun _ => rfl, fun _ => rfl⟩
  | @fault c cs htaken =>
      obtain ⟨hquote, hopen⟩ := isQuote_of_takeLexeme?_eq_none htaken
      rw [openQuote, if_pos hquote, openQuote_of_not_mem hopen]
      exact ⟨nofun, nofun⟩
  | @next c cs rest token rounds result htaken _ ih =>
      rw [(takes_of_takeLexeme? htaken).openQuote_eq, ← ih]
      cases result <;> rfl

end Rounds

theorem ofLine_eq_ok_iff_spells {line : String} {tokens : List Token} :
    ofLine line = .ok tokens ↔ Spells line.toList tokens := by
  constructor
  · intro h
    obtain ⟨rounds, -, hrounds⟩ := exists_rounds line
    rw [h] at hrounds
    exact hrounds.spells
  · intro h
    exact ofLine_eq_ok_iff.mpr (ofChars?_of_spells h)

theorem ofLine_eq_error_iff_openQuote {line : String} {fault : Fault} :
    ofLine line = .error fault ↔ fault = .unmatchedQuote ∧ openQuote none line.toList ≠ none := by
  obtain ⟨rounds, -, hrounds⟩ := exists_rounds line
  rw [ne_eq, ← hrounds.isOk_iff]
  cases hresult : ofLine line with
  | ok tokens => exact iff_of_false nofun fun h => h.2 rfl
  | error other =>
      have hother : ofLine line = .error .unmatchedQuote :=
        ofLine_eq_error fun tokens htokens => absurd (hresult.symm.trans htokens) nofun
      obtain rfl : other = .unmatchedQuote := Except.error.inj (hresult.symm.trans hother)
      exact ⟨fun h => ⟨(Except.error.inj h).symm, nofun⟩, fun h => congrArg Except.error h.1.symm⟩

/-- **A line is read completely, lexeme by lexeme, unless a quote is open at its end.** -/
theorem ofLine_exact (line : String) :
    (∀ fault, ofLine line = .error fault ↔
      fault = .unmatchedQuote ∧ openQuote none line.toList ≠ none) ∧
    (∀ tokens, ofLine line = .ok tokens ↔ Spells line.toList tokens) ∧
    ∃ rounds ≤ line.toList.length, Rounds rounds line.toList (ofLine line) :=
  ⟨fun _ => ofLine_eq_error_iff_openQuote, fun _ => ofLine_eq_ok_iff_spells, exists_rounds line⟩

/-- The name ends before the arrow, so a hyphen is left to it. -/
example : ofLine "a-->b" = .ok [.nonterminal "a-", .equals, .nonterminal "b"] := by
  rw [ofLine_eq_ok_iff]
  simp +decide [ofChars?, takeName]

end ParseForest.Token
