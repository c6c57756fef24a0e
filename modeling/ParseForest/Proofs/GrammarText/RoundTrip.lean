import ParseForest.GrammarText.Reader
import ParseForest.Proofs.Grammar.Rebuild
import ParseForest.Proofs.GrammarText.Written

/-! # Writing a grammar and reading it back

When every line of a text is a rule that can be written, the reader gets just these rules, each with
the number of its line (`ofLines_of_writes`).  The rules of a well-formed grammar make that grammar again,
and in another order they make the same grammar, so every text of a grammar is read as the same
grammar (`ofText_write`).  That `write` gives such a text is part of the result (`writes_write`). -/

namespace ParseForest.GrammarText

/-! ### Reading written rules -/

theorem partition_map_ok {ε α : Type} (items : List α) :
    partition (items.map (Except.ok (ε := ε))) = ([], items) := by
  induction items with
  | nil => rfl
  | cons item items ih => rw [List.map_cons, partition, ih]

variable {rules : List Rule} {lines : List String} {file : String}

/-- A rule on its line. -/
def placed (file : String) (rule : Rule × Nat) : RuleLine :=
  ⟨rule.1.name, rule.1.alternatives, ⟨file, rule.2⟩⟩

theorem numbered_of_writes (h : List.Forall₂ WritesRule rules lines)
    (hr : ∀ rule ∈ rules, WritableRule rule) :
    numbered (lines.map .ok) = (lines.map .ok).zipIdx 1 := by
  refine List.filter_eq_self.mpr fun (line, number) hmem => ?_
  obtain ⟨text, htext, rfl⟩ := List.mem_map.mp (List.fst_mem_of_mem_zipIdx hmem)
  exact forall_pieces h (fun rule hrule line hline => hline.isRuleLine (hr rule hrule)) text htext

theorem map_readLine_of_writes (h : List.Forall₂ WritesRule rules lines)
    (hr : ∀ rule ∈ rules, WritableRule rule) (number : Nat) :
    ((lines.map .ok).zipIdx number).map (readLine file) =
      ((rules.zipIdx number).map (placed file)).map .ok := by
  induction h generalizing number with
  | nil => rfl
  | @cons rule line rules lines hline _ ih =>
      obtain ⟨hrule, hrules⟩ := List.forall_mem_cons.mp hr
      have hread : readLine file (.ok line, number) = .ok (placed file (rule, number)) := by
        unfold readLine
        simp only [ofLine_of_writes hline hrule]
        rfl
      rw [List.map_cons, List.zipIdx_cons, List.map_cons, hread, ih hrules, List.zipIdx_cons,
        List.map_cons, List.map_cons]

theorem ofLines_of_writes (h : List.Forall₂ WritesRule rules lines)
    (hr : ∀ rule ∈ rules, WritableRule rule) :
    ofLines file (lines.map .ok) = ofRuleLines file ((rules.zipIdx 1).map (placed file)) := by
  unfold ofLines
  rw [numbered_of_writes h hr, map_readLine_of_writes h hr, partition_map_ok]

theorem map_placed {β : Type} (f : RuleLine → β) (f' : Rule → β)
    (hf : ∀ rule, f (placed file rule) = f' rule.1) (number : Nat) :
    ((rules.zipIdx number).map (placed file)).map f = rules.map f' := by
  have hcomp : f ∘ placed file = f' ∘ Prod.fst := funext hf
  rw [List.map_map, hcomp, ← List.map_map, List.zipIdx_map_fst]

/-- The rules of a well-formed grammar, that of the start symbol first, make the grammar. -/
theorem ofRuleLines_placed {g : Grammar} (hg : g.WellFormed)
    (hfirst : (g.rules.map Rule.name).head? = some g.start) (number : Nat) :
    ofRuleLines file ((g.rules.zipIdx number).map (placed file)) = .ok g := by
  have hstart : (((g.rules.zipIdx number).map (placed file)).head?.map RuleLine.name).getD "" =
      g.start := by
    rw [← List.head?_map, map_placed RuleLine.name Rule.name (fun _ => rfl), hfirst, Option.getD_some]
  have hentries : ((g.rules.zipIdx number).map (placed file)).map
      (fun rule => (Symbol.nonterminal rule.name, rule.alternatives)) = g.rules.map Rule.entry :=
    map_placed _ _ (fun _ => rfl) number
  unfold ofRuleLines
  simp only [hstart, hentries, Grammar.ofRules_entries hg]

variable {g : Grammar} {text : String}

/-- A text of a grammar is read as its rules, in the order of the text. -/
theorem ofText_of_writes (hg : g.WellFormed) (hw : Writable g) (h : Writes g text) (file : String) :
    ∃ rules, rules.Perm g.rules ∧ ofText file text = .ok { g with rules } := by
  obtain ⟨rules, lines, feed, hperm, hfirst, hlines, hfeed, rfl⟩ := h
  have hr : ∀ rule ∈ rules, WritableRule rule := fun rule hmem => hw.rule hg (hperm.mem_iff.mp hmem)
  have hne : lines ≠ [] := by
    rintro rfl
    rw [List.forall₂_nil_right_iff] at hlines
    rw [hlines] at hfirst
    exact absurd hfirst nofun
  have hread : Text.lines ("\n".intercalate lines ++ feed) = lines := by
    refine Text.lines_intercalate hne ?_ hfeed
    exact forall_pieces hlines fun rule hmem line hline => hline.isLine (hr rule hmem)
  refine ⟨rules, hperm, ?_⟩
  unfold ofText
  rw [hread, ofLines_of_writes hlines hr]
  exact ofRuleLines_placed (g := { g with rules }) (hg.of_perm hperm) hfirst 1

/-! ### The text that `write` chooses -/

theorem writesSymbol_writeSymbol {symbol : Symbol} (h : IsWritable symbol) :
    WritesSymbol symbol (writeSymbol plainQuote symbol) := by
  cases symbol with
  | nonterminal name => rfl
  | terminal text =>
      refine ⟨plainQuote text, ?_, ?_, rfl⟩
      · unfold plainQuote
        split <;> rfl
      · unfold plainQuote
        split
        · rename_i hmem
          exact h.2.2.resolve_left fun hnot => hnot hmem
        · assumption

theorem forall₂_map_right {α : Type} {writes : α → String → Prop} {write : α → String}
    {items : List α} (h : ∀ a ∈ items, writes a (write a)) :
    List.Forall₂ writes items (items.map write) := by
  rw [List.forall₂_map_right_iff, List.forall₂_same]
  exact h

theorem writesAlternative_writeAlternative {alternative : Alternative}
    (h : ∀ symbol ∈ alternative, IsWritable symbol) :
    WritesAlternative alternative (writeAlternative plainQuote alternative) := by
  cases alternative with
  | nil => rfl
  | cons symbol rest =>
      exact ⟨_, forall₂_map_right fun symbol hmem => writesSymbol_writeSymbol (h symbol hmem), rfl⟩

theorem writesRule_writeRule {rule : Rule} (hr : WritableRule rule) :
    WritesRule rule (writeRule plainQuote rule) :=
  ⟨_, forall₂_map_right fun alternative hmem =>
    writesAlternative_writeAlternative (hr.symbols alternative hmem), rfl⟩

theorem writeRules_eq {quote : String → Char} (hne : rules ≠ []) :
    writeRules quote rules = "\n".intercalate (rules.map (writeRule quote)) ++ "\n" := by
  unfold writeRules
  induction rules with
  | nil => exact absurd rfl hne
  | cons rule rest ih =>
      rw [List.map_cons, String.join_cons, List.map_cons]
      by_cases hnil : rest = []
      · subst hnil
        rw [List.map_nil, String.join_nil, String.append_empty, List.map_nil,
          String.intercalate_singleton]
      · rw [ih hnil, String.intercalate_cons_of_ne_nil (mt List.map_eq_nil_iff.mp hnil)]
        simp only [String.append_assoc]

/-- The rules with that of the start symbol first. -/
def startFirst (g : Grammar) : List Rule :=
  (g.rules.filter fun rule => rule.name = g.start) ++ g.rules.filter fun rule => rule.name ≠ g.start

theorem write_eq (g : Grammar) : write g = writeRules plainQuote (startFirst g) := rfl

theorem startFirst_perm (g : Grammar) : (startFirst g).Perm g.rules := by
  have hothers : (g.rules.filter fun rule => rule.name ≠ g.start) =
      g.rules.filter fun rule => !decide (rule.name = g.start) :=
    List.filter_congr fun rule _ => decide_not
  unfold startFirst
  rw [hothers]
  exact List.filter_append_perm _ g.rules

theorem head?_startFirst (hg : g.WellFormed) :
    ((startFirst g).map Rule.name).head? = some g.start := by
  obtain ⟨rule, hmem, hname⟩ := List.mem_map.mp hg.start_mem
  have hstarting : rule ∈ g.rules.filter fun rule => rule.name = g.start :=
    List.mem_filter.mpr ⟨hmem, decide_eq_true hname⟩
  obtain ⟨first, rest, hcons⟩ := List.exists_cons_of_ne_nil (List.ne_nil_of_mem hstarting)
  have hfirst : first ∈ g.rules.filter fun rule => rule.name = g.start :=
    hcons ▸ List.mem_cons_self
  have hname : first.name = g.start := of_decide_eq_true (List.mem_filter.mp hfirst).2
  unfold startFirst
  rw [hcons, List.cons_append, List.map_cons, List.head?_cons, hname]

theorem writes_write (hg : g.WellFormed) (hw : Writable g) : Writes g (write g) := by
  have hne : startFirst g ≠ [] := by
    intro hnil
    have hfirst := head?_startFirst hg
    rw [hnil] at hfirst
    exact absurd hfirst nofun
  have hlines : List.Forall₂ WritesRule (startFirst g) ((startFirst g).map (writeRule plainQuote)) :=
    forall₂_map_right fun rule hmem =>
      writesRule_writeRule (hw.rule hg ((startFirst_perm g).mem_iff.mp hmem))
  exact ⟨_, _, "\n", startFirst_perm g, head?_startFirst hg, hlines, Or.inr rfl,
    (write_eq g).trans (writeRules_eq hne)⟩

/-- **Writing a grammar and reading it back.**  A well-formed grammar whose names and terminals can be
written has a text, and whichever text of it is read, under whatever file name, the reader gives the same
grammar. -/
theorem ofText_write (g : Grammar) (hg : g.WellFormed) (hw : Writable g) :
    Writes g (write g) ∧
      ∀ file text, Writes g text → ∃ read, ofText file text = .ok read ∧ read.Same g := by
  refine ⟨writes_write hg hw, fun file text h => ?_⟩
  obtain ⟨rules, hperm, hread⟩ := ofText_of_writes hg hw h file
  exact ⟨_, hread, Grammar.same_of_perm hg.names_nodup hperm⟩

/-- Names with a hyphen and a number sign, and terminals that look like the rest of a line. -/
def marksGrammar : Grammar :=
  ⟨"a-b", [⟨"é#", [[.terminal "|", .terminal "->"], [.terminal "it's"], []]⟩,
    ⟨"a-b", [[.nonterminal "é#", .nonterminal "a-b"], [.terminal "; \"=\r"]]⟩]⟩

/-- A text of that grammar: the start symbol's rule first, both quotes, no line feed at the end. -/
def marksText : String :=
  "a-b -> é# a-b | '; \"=\r'\né# -> \"|\" '->' | \"it's\" | ''"

/-- The text is read as the grammar. -/
theorem ofText_marksText :
    marksGrammar.WellFormed ∧ Writable marksGrammar ∧ Writes marksGrammar marksText ∧
      ∃ read, ofText "marks" marksText = .ok read ∧ read.Same marksGrammar := by
  have hg : marksGrammar.WellFormed := by decide
  have hw : Writable marksGrammar := by decide
  have hstart : WritesRule ⟨"a-b", [[.nonterminal "é#", .nonterminal "a-b"], [.terminal "; \"=\r"]]⟩
      "a-b -> é# a-b | '; \"=\r'" :=
    ⟨["é# a-b", "'; \"=\r'"],
      .cons ⟨["é#", "a-b"], .cons rfl (.cons rfl .nil), by decide⟩ <|
        .cons ⟨["'; \"=\r'"], .cons ⟨'\'', by decide, by decide, by decide⟩ .nil, by decide⟩ .nil,
      by decide⟩
  have hother : WritesRule ⟨"é#", [[.terminal "|", .terminal "->"], [.terminal "it's"], []]⟩
      "é# -> \"|\" '->' | \"it's\" | ''" :=
    ⟨["\"|\" '->'", "\"it's\"", "''"],
      .cons ⟨["\"|\"", "'->'"], .cons ⟨'"', by decide, by decide, by decide⟩ <|
          .cons ⟨'\'', by decide, by decide, by decide⟩ .nil, by decide⟩ <|
        .cons ⟨["\"it's\""], .cons ⟨'"', by decide, by decide, by decide⟩ .nil, by decide⟩ <|
        .cons rfl .nil,
      by decide⟩
  have hwrites : Writes marksGrammar marksText :=
    ⟨_, _, "", List.Perm.swap _ _ [], rfl, .cons hstart (.cons hother .nil), Or.inl rfl, by decide⟩
  exact ⟨hg, hw, hwrites, (ofText_write marksGrammar hg hw).2 "marks" marksText hwrites⟩

end ParseForest.GrammarText
