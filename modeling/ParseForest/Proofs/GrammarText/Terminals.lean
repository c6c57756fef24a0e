import ParseForest.Proofs.GrammarText.Acceptance
import ParseForest.Proofs.GrammarText.File
import ParseForest.Proofs.GrammarText.Scan

/-! # Symbols of grammars that were read

The text of a token is made of characters of its line (`Token.content_subset`), and a line has no line
feed in it (`Text.feed_not_mem_of_mem_lines`).  So no terminal and no name of a grammar read from a file
has one (`feed_not_mem_of_ofFile`, `feed_not_mem_name_of_ofFile`), and a sentence of the grammar takes
one line, as does a message about its start symbol. -/

namespace ParseForest

/-! ### Characters of tokens -/

namespace Token

/-- The characters of the text that a token carries. -/
def content : Token → List Char
  | equals | bar => []
  | nonterminal name => name.toList
  | terminal text => text.toList

/-- The text of a token is made of characters of the line. -/
theorem content_subset {cs : List Char} {tokens : List Token} {token : Token} (h : Spells cs tokens)
    (hmem : token ∈ tokens) : token.content ⊆ cs := by
  induction h with
  | done => exact absurd hmem List.not_mem_nil
  | space _ _ ih => exact List.subset_cons_of_subset _ (ih hmem)
  | equals _ ih | bar _ ih =>
      rcases List.mem_cons.mp hmem with rfl | hlater
      · exact List.nil_subset _
      · exact List.subset_cons_of_subset _ (ih hlater)
  | arrow _ ih =>
      rcases List.mem_cons.mp hmem with rfl | hlater
      · exact List.nil_subset _
      · exact List.subset_cons_of_subset _ (List.subset_cons_of_subset _ (ih hlater))
  | @terminal quote text cs tokens _ _ _ ih =>
      rcases List.mem_cons.mp hmem with rfl | hlater
      · rw [content, String.toList_ofList]
        exact List.subset_append_of_subset_left _ (List.subset_cons_self quote text)
      · exact List.subset_append_of_subset_right _ (List.subset_cons_of_subset quote (ih hlater))
  | @nonterminal name cs tokens _ _ _ _ ih =>
      rcases List.mem_cons.mp hmem with rfl | hlater
      · rw [content, String.toList_ofList]
        exact List.subset_append_left name cs
      · exact List.subset_append_of_subset_right name (ih hlater)

end Token

/-! ### Line feeds -/

namespace Text

theorem exists_piece_of_mem_linesOfPieces {α : Type} [DecidableEq α] {ret : α} {pieces : List (List α)}
    {line : List α} (h : line ∈ linesOfPieces ret pieces) : ∃ piece ∈ pieces, line ⊆ piece := by
  induction pieces with
  | nil => exact absurd h List.not_mem_nil
  | cons piece pieces ih =>
      cases pieces with
      | nil =>
          rw [linesOfPieces] at h
          split at h
          · exact absurd h List.not_mem_nil
          · exact ⟨piece, List.mem_cons_self, by simp [List.mem_singleton.mp h]⟩
      | cons next rest =>
          rw [linesOfPieces, List.mem_cons] at h
          obtain rfl | hlater := h
          · refine ⟨piece, List.mem_cons_self, ?_⟩
            unfold dropReturn
            split
            · exact (List.dropLast_sublist piece).subset
            · exact List.Subset.refl piece
          · obtain ⟨other, hother, hsubset⟩ := ih hlater
            exact ⟨other, List.mem_cons_of_mem _ hother, hsubset⟩

theorem feed_not_mem_of_mem_lines {text line : String} (h : line ∈ lines text) :
    '\n' ∉ line.toList := by
  obtain ⟨cs, hcs, rfl⟩ := List.mem_map.mp h
  obtain ⟨piece, hpiece, hsubset⟩ := exists_piece_of_mem_linesOfPieces hcs
  rw [String.toList_ofList]
  exact fun hfeed => GrammarText.not_mem_of_mem_splitOn hpiece (hsubset hfeed)

end Text

namespace GrammarText

variable {text content : String} {g : Grammar}

theorem terminal_mem_right {clause : Clause}
    (h : .terminal content ∈ clause.alternatives.flatten) : .terminal content ∈ clause.right := by
  rw [flatten_alternatives, List.mem_filterMap] at h
  obtain ⟨token, htoken, hsymbol⟩ := h
  cases token with
  | terminal other =>
      rw [Token.symbol?] at hsymbol
      split at hsymbol
      · simp at hsymbol
      · obtain rfl := Symbol.terminal.inj (Option.some.inj hsymbol)
        exact htoken
  | nonterminal | equals | bar => simp [Token.symbol?] at hsymbol

theorem exists_line_of_clause {clause : Clause} {token : Token} (h : clause ∈ clauses text)
    (hmem : token ∈ .nonterminal clause.name :: clause.right) :
    ∃ line ∈ Text.lines text, token.content ⊆ line.toList := by
  obtain ⟨line, hline, hstates⟩ := List.mem_filterMap.mp h
  obtain ⟨htokens, -, -⟩ := ofLine?_eq_some_iff.mp hstates
  refine ⟨line.1, List.fst_mem_of_mem_zipIdx (List.mem_filter.mp hline).1, ?_⟩
  refine Token.content_subset (Token.ofLine_eq_ok_iff_spells.mp htokens) ?_
  exact List.cons_subset_cons _ (List.subset_cons_self _ _) hmem

theorem exists_line_of_terminal {file : String} (h : ofText file text = .ok g)
    (hmem : .terminal content ∈ g.rightHandSymbols) :
    ∃ line ∈ Text.lines text, content.toList ⊆ line.toList := by
  obtain ⟨-, hbuilt⟩ := ofText_eq_ok_iff.mp h
  obtain ⟨-, rfl⟩ := Grammar.ofRules_eq_ok_iff.mp hbuilt
  obtain ⟨rule, hrule, hflat⟩ := List.mem_flatMap.mp hmem
  obtain ⟨name, -, rfl⟩ := List.mem_map.mp hrule
  obtain ⟨alternative, halternative, hsymbol⟩ := List.mem_flatten.mp hflat
  rw [gatheredAlternatives_clauseEntries, List.mem_eraseDups] at halternative
  obtain ⟨clause, hclause, -, hwritten⟩ := mem_writtenAlternatives.mp halternative
  have hright := terminal_mem_right (List.mem_flatten_of_mem hwritten hsymbol)
  exact exists_line_of_clause hclause (List.mem_cons_of_mem _ hright)

theorem exists_line_of_name {file name : String} (h : ofText file text = .ok g)
    (hmem : name ∈ g.names) : ∃ line ∈ Text.lines text, name.toList ⊆ line.toList := by
  obtain ⟨-, hbuilt⟩ := ofText_eq_ok_iff.mp h
  obtain ⟨-, rfl⟩ := Grammar.ofRules_eq_ok_iff.mp hbuilt
  rw [Grammar.names, Grammar.names_gather, entryNames_clauseEntries, List.mem_eraseDups] at hmem
  obtain ⟨clause, hclause, rfl⟩ := List.mem_map.mp hmem
  exact exists_line_of_clause hclause List.mem_cons_self

/-- **No terminal of a grammar read from a file has a line feed in it.** -/
theorem feed_not_mem_of_ofFile {files : Files} {file : String} (h : ofFile files file = .ok g)
    (hmem : .terminal content ∈ g.rightHandSymbols) : '\n' ∉ content.toList := by
  obtain ⟨text, -, hread⟩ := ofFile_eq_ok_iff.mp h
  obtain ⟨line, hline, hsubset⟩ := exists_line_of_terminal hread hmem
  exact fun hfeed => Text.feed_not_mem_of_mem_lines hline (hsubset hfeed)

theorem feed_not_mem_name_of_ofFile {files : Files} {file name : String}
    (h : ofFile files file = .ok g) (hmem : name ∈ g.names) : '\n' ∉ name.toList := by
  obtain ⟨text, -, hread⟩ := ofFile_eq_ok_iff.mp h
  obtain ⟨line, hline, hsubset⟩ := exists_line_of_name hread hmem
  exact fun hfeed => Text.feed_not_mem_of_mem_lines hline (hsubset hfeed)

end GrammarText

end ParseForest
