import ParseForest.Arithmetic.Expression
import ParseForest.Proofs.Chart.Derivations
import ParseForest.Proofs.Grammar.Invariant

/-! # Derivations of arithmetic expressions

The three nonterminals are levels, and between two neighbouring levels lies a layer of the same
shape: sums of terms, products of factors (`Layer`).  So a derivation is an operation of a layer, a
single step down a layer, a pair of parentheses, or an operand (`IsDerivation`,
`isDerivation_iff`).

No alternative is empty, and single nonterminals only lead down.  So a parse from any level holds all
derivations of the tokens (`mem_parse_iff_isDerivation`). -/

namespace ParseForest.Arithmetic

/-- The nonterminals of the grammar. -/
inductive Level where
  | expression
  | term
  | factor

/-- The name of a nonterminal. -/
def Level.name : Level → String
  | expression => "E"
  | term => "T"
  | factor => "F"

/-- A layer of the grammar: phrases of the level `lower` are joined by the operators, from the left,
to phrases of the level `upper`. -/
inductive Layer : (upper : Level) → (among : List String) → (lower : Level) → Prop
  | sums : Layer .expression additive .term
  | products : Layer .term multiplicative .factor

/-- The derivation trees of the grammar, by the level of the root. -/
inductive IsDerivation : Level → Tree → Prop
  | operation {upper lower : Level} {among : List String} {operator : String} {left right : Tree} :
      Layer upper among lower → operator ∈ among → IsDerivation upper left →
      IsDerivation lower right →
      IsDerivation upper (.node (.nonterminal upper.name) [left, .leaf operator, right])
  | single {upper lower : Level} {among : List String} {inner : Tree} :
      Layer upper among lower → IsDerivation lower inner →
      IsDerivation upper (.node (.nonterminal upper.name) [inner])
  | parenthesized {inner : Tree} : IsDerivation .expression inner →
      IsDerivation .factor (.node (.nonterminal "F") [.leaf "(", inner, .leaf ")"])
  | operand {text : String} : text ∈ operands →
      IsDerivation .factor (.node (.nonterminal "F") [.leaf text])

theorem Layer.unique {upper lower lower' : Level} {among among' : List String}
    (h : Layer upper among lower) (h' : Layer upper among' lower') :
    among = among' ∧ lower = lower' := by
  cases h <;> cases h' <;> exact ⟨rfl, rfl⟩

/-! ### Alternatives -/

/-- The alternatives of a level. -/
inductive Expansion : Level → Alternative → Prop
  | operation {upper lower : Level} {among : List String} {operator : String} :
      Layer upper among lower → operator ∈ among →
      Expansion upper (binary upper.name operator lower.name)
  | single {upper lower : Level} {among : List String} :
      Layer upper among lower → Expansion upper [.nonterminal lower.name]
  | parenthesized : Expansion .factor [.terminal "(", .nonterminal "E", .terminal ")"]
  | operand {text : String} : text ∈ operands → Expansion .factor [.terminal text]

theorem alternatives_expression : grammar.alternatives "E" =
    [binary "E" "+" "T", binary "E" "-" "T", [.nonterminal "T"]] := by decide

theorem alternatives_term : grammar.alternatives "T" =
    [binary "T" "*" "F", binary "T" "/" "F", [.nonterminal "F"]] := by decide

theorem alternatives_factor : grammar.alternatives "F" =
    [.terminal "(", .nonterminal "E", .terminal ")"] ::
      operands.map fun operand => [.terminal operand] := by decide

theorem expands_iff {level : Level} {alternative : Alternative} :
    grammar.Expands level.name alternative ↔ Expansion level alternative := by
  unfold Grammar.Expands
  constructor
  · intro h
    cases level with
    | expression =>
        rw [Level.name, alternatives_expression] at h
        simp only [List.mem_cons, List.not_mem_nil, or_false] at h
        rcases h with rfl | rfl | rfl
        · exact .operation .sums (by decide)
        · exact .operation .sums (by decide)
        · exact .single .sums
    | term =>
        rw [Level.name, alternatives_term] at h
        simp only [List.mem_cons, List.not_mem_nil, or_false] at h
        rcases h with rfl | rfl | rfl
        · exact .operation .products (by decide)
        · exact .operation .products (by decide)
        · exact .single .products
    | factor =>
        rw [Level.name, alternatives_factor] at h
        rcases List.mem_cons.mp h with rfl | h
        · exact .parenthesized
        · obtain ⟨text, htext, rfl⟩ := List.mem_map.mp h
          exact .operand htext
  · intro h
    cases h with
    | operation hlayer hop =>
        cases hlayer with
        | sums =>
            rw [Level.name, alternatives_expression]
            simp only [additive, List.mem_cons, List.not_mem_nil, or_false] at hop
            rcases hop with rfl | rfl <;> simp [Level.name]
        | products =>
            rw [Level.name, alternatives_term]
            simp only [multiplicative, List.mem_cons, List.not_mem_nil, or_false] at hop
            rcases hop with rfl | rfl <;> simp [Level.name]
    | single hlayer =>
        cases hlayer <;> decide
    | parenthesized => decide
    | operand htext =>
        rw [Level.name, alternatives_factor]
        exact List.mem_cons_of_mem _ (List.mem_map.mpr ⟨_, htext, rfl⟩)

/-! ### Trees -/

theorem IsDerivation.root_eq {level : Level} {t : Tree} (h : IsDerivation level t) :
    t.root = .nonterminal level.name := by
  cases h <;> rfl

theorem IsDerivation.derives {level : Level} {t : Tree} (h : IsDerivation level t) :
    t.Derives grammar.Expands := by
  induction h with
  | @operation upper lower among operator left right hlayer hop hleft hright ihl ihr =>
      refine .node _ _ ?_ ?_
      · rw [List.map_cons, List.map_cons, List.map_cons, hleft.root_eq, hright.root_eq]
        exact expands_iff.mpr (.operation hlayer hop)
      · simp only [List.forall_mem_cons]
        exact ⟨ihl, .leaf operator, ihr, List.forall_mem_nil _⟩
  | @single upper lower among inner hlayer hinner ih =>
      refine .node _ _ ?_ (List.forall_mem_singleton.mpr ih)
      rw [List.map_singleton, hinner.root_eq]
      exact expands_iff.mpr (.single hlayer)
  | parenthesized hinner ih =>
      refine .node "F" _ ?_ ?_
      · rw [List.map_cons, List.map_cons, List.map_cons, hinner.root_eq]
        exact expands_iff.mpr .parenthesized
      · simp only [List.forall_mem_cons]
        exact ⟨.leaf "(", ih, .leaf ")", List.forall_mem_nil _⟩
  | @operand text htext =>
      refine .node "F" _ ?_ (List.forall_mem_singleton.mpr (.leaf text))
      exact expands_iff.mpr (.operand htext)

theorem eq_three_of_map_root {children : List Tree} {first second third : Symbol}
    (h : children.map Tree.root = [first, second, third]) :
    ∃ a b c, children = [a, b, c] ∧ a.root = first ∧ b.root = second ∧ c.root = third := by
  obtain ⟨a, rest, rfl, ha, hrest⟩ := List.map_eq_cons_iff.mp h
  obtain ⟨b, rest, rfl, hb, hrest⟩ := List.map_eq_cons_iff.mp hrest
  obtain ⟨c, rfl, hc⟩ := List.map_eq_singleton_iff.mp hrest
  exact ⟨a, b, c, rfl, ha, hb, hc⟩

/-- The derivation trees of the grammar are the trees that derive. -/
theorem isDerivation_iff {level : Level} {t : Tree} :
    IsDerivation level t ↔ t.root = .nonterminal level.name ∧ t.Derives grammar.Expands := by
  refine ⟨fun h => ⟨h.root_eq, h.derives⟩, ?_⟩
  rintro ⟨hroot, hd⟩
  induction hd generalizing level with
  | leaf text => exact absurd hroot Symbol.noConfusion
  | node name children hexpands hchildren ih =>
      obtain rfl := Symbol.nonterminal.inj hroot
      generalize hroots : children.map Tree.root = alternative at hexpands
      cases expands_iff.mp hexpands with
      | operation hlayer hop =>
          obtain ⟨left, sign, right, rfl, hl, hs, hr⟩ := eq_three_of_map_root hroots
          obtain rfl := (hchildren sign (by simp)).eq_leaf hs
          exact .operation hlayer hop (ih left (by simp) hl) (ih right (by simp) hr)
      | single hlayer =>
          obtain ⟨inner, rfl, hi⟩ := List.map_eq_singleton_iff.mp hroots
          exact .single hlayer (ih inner (by simp) hi)
      | parenthesized =>
          obtain ⟨left, inner, right, rfl, hl, hi, hr⟩ := eq_three_of_map_root hroots
          obtain rfl := (hchildren left (by simp)).eq_leaf hl
          obtain rfl := (hchildren right (by simp)).eq_leaf hr
          exact .parenthesized (ih inner (by simp) hi)
      | operand htext =>
          obtain ⟨token, rfl, ht⟩ := List.map_eq_singleton_iff.mp hroots
          obtain rfl := (hchildren token (by simp)).eq_leaf ht
          exact .operand htext

/-! ### Leaves -/

section

variable {label : Symbol} {left right inner : Tree} {operator opening closing : String}

theorem leaves_operation : (Tree.node label [left, .leaf operator, right]).leaves =
    left.leaves ++ operator :: right.leaves := by
  simp [Tree.leaves, Tree.leavesAll]

theorem leaves_single : (Tree.node label [inner]).leaves = inner.leaves := by
  simp [Tree.leaves, Tree.leavesAll]

theorem leaves_enclosed : (Tree.node label [.leaf opening, inner, .leaf closing]).leaves =
    opening :: inner.leaves ++ [closing] := by
  simp [Tree.leaves, Tree.leavesAll]

end

/-! ### Parses -/

/-- The grammar restarted from a level. -/
def restarted (level : Level) : Grammar :=
  { grammar with start := level.name }

theorem withStart_name (level : Level) :
    grammar.withStart level.name = .ok (restarted level) := by
  apply Grammar.withStart_eq_ok
  cases level <;> decide

theorem wellFormed_restarted (level : Level) : (restarted level).WellFormed := by
  apply Grammar.WellFormed.withStart Grammar.wellFormed_arithmetic
  cases level <;> decide

theorem noEmpty_grammar : grammar.NoEmpty := by
  intro name h
  obtain ⟨rule, hrule, -, heq⟩ := Grammar.exists_rule_of_mem_alternatives h
  have hnone : ∀ rule ∈ grammar.rules, [] ∉ rule.alternatives := by decide
  exact hnone rule hrule (heq ▸ h)

theorem exists_level {name : String} (h : name ∈ grammar.names) :
    ∃ level : Level, name = level.name := by
  have hnames : grammar.names = ["E", "T", "F"] := rfl
  simp only [hnames, List.mem_cons, List.not_mem_nil, or_false] at h
  rcases h with rfl | rfl | rfl
  · exact ⟨.expression, rfl⟩
  · exact ⟨.term, rfl⟩
  · exact ⟨.factor, rfl⟩

theorem unitAcyclic_grammar : grammar.UnitAcyclic := by
  refine Grammar.unitAcyclic_of_rank (fun name => ["F", "T", "E"].idxOf name) fun name child h => ?_
  obtain ⟨level, rfl⟩ := exists_level (Grammar.mem_names_of_expands h)
  cases expands_iff.mp h with
  | single hlayer => cases hlayer <;> decide

theorem mem_parse_iff_isDerivation {level : Level} {tokens : List String} {direction : Direction}
    {t : Tree} :
    t ∈ parse (restarted level) tokens direction ↔ IsDerivation level t ∧ t.leaves = tokens := by
  have hempty : (restarted level).NoEmpty := noEmpty_grammar
  have hunit : (restarted level).UnitAcyclic := unitAcyclic_grammar
  rw [Chart.mem_parse_iff (wellFormed_restarted level) hempty hunit, isDerivation_iff, and_assoc]
  rfl

end ParseForest.Arithmetic
