import ParseForest.Proofs.Chart.Sweep

/-! # The cells of a finished chart

The cell of a span is what filling it from the cells of all shorter spans gives, and longer spans
do not touch it again (`cell_ofLength`).  So one test, `Chart.fits`, tells for the finished chart
what a part of the input fits: it agrees with what was looked at while a span was filled
(`fits_recognize`), and what is recognized over a span are the nonterminals that have an alternative
splitting it by that test (`recognizes_of_mem_splits`). -/

namespace ParseForest

namespace Table

variable {tokens : List String} {rules : List Rule}

/-! ### Rows of the table -/

theorem ofLength_succ (length : Nat) :
    ofLength tokens rules (length + 1) =
      (ofLength tokens rules length).push ((List.range (tokens.length - length)).map fun start =>
        (ofLength tokens rules length).fill tokens rules ⟨start, start + (length + 1)⟩).toArray := rfl

theorem size_ofLength (bound : Nat) : (ofLength tokens rules bound).size = bound := by
  induction bound with
  | zero => rfl
  | succ bound ih =>
      rw [ofLength_succ, Array.size_push, ih]

theorem getElem?_ofLength {length bound : Nat} (h : length < bound) :
    (ofLength tokens rules bound)[length]? =
      some ((List.range (tokens.length - length)).map fun start =>
        (ofLength tokens rules length).fill tokens rules ⟨start, start + (length + 1)⟩).toArray := by
  induction bound with
  | zero => exact absurd h (Nat.not_lt_zero _)
  | succ bound ih =>
      rw [ofLength_succ, Array.getElem?_push, size_ofLength]
      by_cases he : length = bound
      · subst he
        rw [if_pos rfl]
      · rw [if_neg he]
        exact ih (by omega)

theorem cell_ofLength {bound : Nat} {span : Span} :
    (ofLength tokens rules bound).cell span =
      if span.Within 0 tokens.length ∧ span.length ≤ bound then
        (ofLength tokens rules (span.length - 1)).fill tokens rules span
      else [] := by
  obtain ⟨start, stop⟩ := span
  unfold cell Span.Within Span.length
  simp only
  by_cases hlt : start < stop
  · rw [if_pos hlt]
    by_cases hle : stop - start ≤ bound
    · have hrow : stop - start - 1 < bound := by omega
      rw [getElem?_ofLength hrow, Option.bind_some, List.getElem?_toArray, List.getElem?_map]
      by_cases hin : stop ≤ tokens.length
      · have hplace : start < tokens.length - (stop - start - 1) := by omega
        have hstop : start + (stop - start - 1 + 1) = stop := by omega
        rw [List.getElem?_range hplace, Option.map_some, Option.getD_some, hstop, if_pos (by omega)]
      · have hbeyond : (List.range (tokens.length - (stop - start - 1))).length ≤ start := by
          rw [List.length_range]
          omega
        rw [List.getElem?_eq_none hbeyond, if_neg (by omega)]
        rfl
    · have hbeyond : (ofLength tokens rules bound).size ≤ stop - start - 1 := by
        rw [size_ofLength]
        omega
      rw [Array.getElem?_eq_none hbeyond, if_neg (by omega)]
      rfl
  · rw [if_neg hlt, if_neg (by omega)]

theorem names_fill {table : Table} {span : Span} :
    (table.fill tokens rules span).names =
      (rules.map Rule.name).filter fun name => name ∈ table.recognize tokens rules span := by
  unfold fill Cell.names
  rw [List.map_map, List.filter_map]
  rfl

theorem mem_names_fill {table : Table} {span : Span} {name : String} :
    name ∈ (table.fill tokens rules span).names ↔ name ∈ table.recognize tokens rules span := by
  rw [names_fill, List.mem_filter, decide_eq_true_eq]
  exact ⟨fun h => h.2, fun h => ⟨known_recognize.2 h, h⟩⟩

end Table

namespace Chart

/-- Whether a part of the input fits a symbol, by the finished chart. -/
def fits (chart : Chart) (symbol : Symbol) (part : Span) : Bool :=
  match symbol with
  | .terminal text => part.length = 1 && chart.tokens[part.start]? = some text
  | .nonterminal name => chart.recognizes name part

variable {g : Grammar} {tokens : List String} {span : Span} {name : String}

/-- The cells of all spans shorter than the given one. -/
def shorterTable (g : Grammar) (tokens : List String) (span : Span) : Table :=
  Table.ofLength tokens g.rules (span.length - 1)

theorem cell_build :
    (build g tokens).table.cell span =
      if span.Within 0 tokens.length then (shorterTable g tokens span).fill tokens g.rules span
      else [] := by
  unfold build shorterTable
  rw [Table.cell_ofLength]
  refine if_congr ⟨fun h => h.1, fun h => ⟨h, ?_⟩⟩ rfl rfl
  have hstop := h.2.2
  unfold Span.length
  omega

theorem recognizes_iff :
    (build g tokens).recognizes name span = true ↔
      span.Within 0 tokens.length ∧
        name ∈ (shorterTable g tokens span).recognize tokens g.rules span := by
  unfold recognizes
  rw [decide_eq_true_eq, cell_build]
  split
  · rename_i h
    rw [Table.mem_names_fill]
    exact ⟨fun hm => ⟨h, hm⟩, fun hm => hm.2⟩
  · rename_i h
    exact ⟨fun hm => absurd hm List.not_mem_nil, fun hm => absurd hm.1 h⟩

/-- While a span is filled the cells of its proper parts are those of the finished chart. -/
theorem cell_shorterTable {part : Span} (hp : part.Within span.start span.stop) (hne : part ≠ span) :
    (shorterTable g tokens span).cell part = (build g tokens).table.cell part := by
  have hlt := hp.length_lt hne
  unfold shorterTable build
  rw [Table.cell_ofLength, Table.cell_ofLength]
  refine if_congr ⟨fun h => ⟨h.1, ?_⟩, fun h => ⟨h.1, by omega⟩⟩ rfl rfl
  have hstop := h.1.2.2
  unfold Span.length
  omega

/-- While a span is filled the parts fit what they fit by the finished chart, once all is known
that is recognized over the span. -/
theorem fits_recognize (hs : span.Within 0 tokens.length) {symbol : Symbol} {part : Span}
    (hp : part.Within span.start span.stop) :
    (shorterTable g tokens span).fits tokens span
        ((shorterTable g tokens span).recognize tokens g.rules span) symbol part =
      (build g tokens).fits symbol part := by
  cases symbol with
  | terminal text => rfl
  | nonterminal name =>
      unfold Table.fits fits
      simp only
      by_cases he : part = span
      · subst he
        rw [if_pos rfl, Bool.eq_iff_iff, decide_eq_true_eq, recognizes_iff]
        exact ⟨fun h => ⟨hs, h⟩, fun h => h.2⟩
      · rw [if_neg he, cell_shorterTable hp he]
        rfl

theorem recognizes_of_mem_splits (hs : span.Within 0 tokens.length) {rule : Rule}
    (hr : rule ∈ g.rules) {symbols : Alternative} (halt : symbols ∈ rule.alternatives)
    {boundaries : List Nat} (hb : boundaries ∈ splits (build g tokens).fits symbols span) :
    (build g tokens).recognizes rule.name span = true := by
  rw [← splits_congr fun symbol _ part hp => fits_recognize hs hp] at hb
  have hd := Table.derives_iff.mpr ⟨symbols, halt, boundaries, hb⟩
  exact recognizes_iff.mpr ⟨hs, Table.recognize_closed hr hd⟩

end Chart

end ParseForest
