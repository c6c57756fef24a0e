import ParseForest.Proofs.Sentence.Height
import ParseForest.Proofs.Sentence.Run

/-! # Which trees are grown

With the least heights at hand a node is left with the alternatives no higher than the budget, or
than the nonterminal's least height where that is more (`mem_candidates_iff`).  So a tree grows from
every symbol with a least height, no higher than the budget or that height (`always_grow`), and
every derivation tree within the budget grows from some tape (`reaches_grow`).  A nonterminal
without a least height is left with no alternative and fails before anything is drawn
(`run_grow_unproductive`), as does one without a rule (`run_grow_undefined`).

The greater of the budget and the least height falls from a node to each of its children
(`lt_of_mem_candidates`).  It bounds the levels, so more of them change nothing (`grow_levels`). -/

namespace ParseForest

variable {g : Grammar} {name : String}

namespace Sentence

open Generator

/-! ### Candidates -/

section Candidates

variable {heights : Heights} {alternatives : List Alternative} {budget : Nat}

/-- The alternatives of known height, each with it. -/
def sized (heights : Heights) (alternatives : List Alternative) : List (Alternative × Nat) :=
  alternatives.filterMap fun alternative =>
    (heights.ofAlternative alternative).map fun height => (alternative, height)

/-- Those that fit into the budget. -/
def fitting (heights : Heights) (alternatives : List Alternative) (budget : Nat) :
    List (Alternative × Nat) :=
  (sized heights alternatives).filter fun candidate => candidate.2 ≤ budget

theorem candidates_eq :
    candidates heights alternatives budget =
      if (fitting heights alternatives budget).isEmpty then
        ((sized heights alternatives).filter fun candidate =>
          some candidate.2 = ((sized heights alternatives).map Prod.snd).min?).map Prod.fst
      else (fitting heights alternatives budget).map Prod.fst := rfl

theorem mem_sized_iff {alternative : Alternative} {height : Nat} :
    (alternative, height) ∈ sized heights alternatives ↔
      alternative ∈ alternatives ∧ heights.ofAlternative alternative = some height := by
  unfold sized
  rw [List.mem_filterMap]
  constructor
  · rintro ⟨_, hmem, heq⟩
    obtain ⟨_, hheight, hpair⟩ := Option.map_eq_some_iff.mp heq
    obtain ⟨rfl, rfl⟩ := Prod.mk.inj hpair
    exact ⟨hmem, hheight⟩
  · intro ⟨hmem, hheight⟩
    exact ⟨alternative, hmem, by rw [hheight, Option.map_some]⟩

theorem min?_sized : ((sized heights alternatives).map Prod.snd).min? = heights.least alternatives := by
  have hmap : ∀ alternative, ((heights.ofAlternative alternative).map fun height =>
      (alternative, height)).map Prod.snd = heights.ofAlternative alternative := by
    intro alternative
    rw [Option.map_map]
    exact Option.map_id'
  unfold sized Heights.least
  rw [List.map_filterMap]
  simp only [hmap]

theorem mem_fitting_iff {alternative : Alternative} {height : Nat} :
    (alternative, height) ∈ fitting heights alternatives budget ↔
      alternative ∈ alternatives ∧ heights.ofAlternative alternative = some height ∧
        height ≤ budget := by
  unfold fitting
  rw [List.mem_filter, mem_sized_iff, decide_eq_true_eq, and_assoc]

theorem isEmpty_fitting_iff {least : Nat} (hleast : heights.least alternatives = some least) :
    (fitting heights alternatives budget).isEmpty = true ↔ budget < least := by
  obtain ⟨⟨lowest, hlowest, hheight⟩, hle⟩ := Heights.least_eq_some_iff.mp hleast
  rw [List.isEmpty_iff, List.eq_nil_iff_forall_not_mem]
  constructor
  · intro h
    have hnot := h (lowest, least)
    rw [mem_fitting_iff] at hnot
    exact Nat.lt_of_not_le fun hfits => hnot ⟨hlowest, hheight, hfits⟩
  · intro hbudget (alternative, height) hmem
    obtain ⟨halternative, hof, hfits⟩ := mem_fitting_iff.mp hmem
    have hge := hle alternative halternative height hof
    omega

theorem mem_candidates_iff {least : Nat} (hleast : heights.least alternatives = some least)
    {alternative : Alternative} :
    alternative ∈ candidates heights alternatives budget ↔ alternative ∈ alternatives ∧
      ∃ height ≤ max budget least, heights.ofAlternative alternative = some height := by
  rw [candidates_eq]
  by_cases hbudget : budget < least
  · -- nothing fits, so the shallowest are left
    rw [if_pos ((isEmpty_fitting_iff hleast).mpr hbudget), max_eq_right hbudget.le, min?_sized, hleast]
    simp only [List.mem_map, List.mem_filter, decide_eq_true_eq, Option.some.injEq, Prod.exists,
      mem_sized_iff]
    constructor
    · rintro ⟨_, height, ⟨⟨hmem, hof⟩, heq⟩, rfl⟩
      exact ⟨hmem, height, heq.le, hof⟩
    · rintro ⟨hmem, height, hle, hof⟩
      have hge := (Heights.least_eq_some_iff.mp hleast).2 alternative hmem height hof
      exact ⟨alternative, height, ⟨⟨hmem, hof⟩, hle.antisymm hge⟩, rfl⟩
  · rw [if_neg (hbudget ∘ (isEmpty_fitting_iff hleast).mp), max_eq_left (Nat.le_of_not_lt hbudget)]
    simp only [List.mem_map, Prod.exists, mem_fitting_iff]
    constructor
    · rintro ⟨_, height, ⟨hmem, hof, hle⟩, rfl⟩
      exact ⟨hmem, height, hle, hof⟩
    · rintro ⟨hmem, height, hle, hof⟩
      exact ⟨alternative, height, ⟨hmem, hof, hle⟩, rfl⟩

theorem candidates_ne_nil {least : Nat} (hleast : heights.least alternatives = some least) :
    candidates heights alternatives budget ≠ [] := by
  obtain ⟨⟨lowest, hmem, hheight⟩, -⟩ := Heights.least_eq_some_iff.mp hleast
  exact List.ne_nil_of_mem
    ((mem_candidates_iff hleast).mpr ⟨hmem, least, Nat.le_max_right budget least, hheight⟩)

theorem candidates_eq_nil (hleast : heights.least alternatives = none) :
    candidates heights alternatives budget = [] := by
  have hnil : sized heights alternatives = [] := by
    rwa [← min?_sized, List.min?_eq_none_iff, List.map_eq_nil_iff] at hleast
  rw [candidates_eq, fitting, hnil]
  rfl

end Candidates

/-! ### Growing -/

theorem grow_nonterminal (hname : name ∈ g.names) (heights : Heights) (levels budget : Nat) :
    grow g heights (levels + 1) budget (.nonterminal name) = do
      let alternative ← choose name (candidates heights (g.alternatives name) budget)
      let children ← alternative.mapM (grow g heights levels (budget - 1))
      return .node (.nonterminal name) children := by
  cases halternatives : g.alternatives? name with
  | none => exact absurd hname (Grammar.alternatives?_eq_none.mp halternatives)
  | some alternatives => simp only [grow, Grammar.alternatives, halternatives, Option.getD_some]

theorem lt_of_mem_candidates (hn : g.names.Nodup) {budget least : Nat} {alternative : Alternative}
    (hleast : g.LeastHeight (.nonterminal name) least)
    (hmem : alternative ∈ candidates g.heights (g.alternatives name) budget) :
    alternative ∈ g.alternatives name ∧ ∀ child ∈ alternative,
      ∃ low, g.LeastHeight child low ∧ max (budget - 1) low < max budget least := by
  have hknown := (Grammar.least_heights_iff hn).mpr hleast
  obtain ⟨hexpands, height, hheight, hof⟩ := (mem_candidates_iff hknown).mp hmem
  obtain ⟨below, hrow, rfl⟩ := (Grammar.ofAlternative_heights_iff hn).mp hof
  refine ⟨hexpands, fun child hchild => ?_⟩
  obtain ⟨low, hlow, hchild_least⟩ := hrow.exists_le child hchild
  have hpos := hleast.pos
  exact ⟨low, hchild_least, by omega⟩

/-- A symbol with a least height grows a derivation tree, no higher than the budget or that height. -/
theorem always_grow (hn : g.names.Nodup) {levels budget least : Nat} {symbol : Symbol}
    (hleast : g.LeastHeight symbol least) (hbudget : budget ≤ levels) (hlevels : least ≤ levels) :
    Always (grow g g.heights levels budget symbol) fun t =>
      t ∈ g.derivationTrees symbol ∧ t.height ≤ max budget least := by
  induction levels generalizing budget least symbol with
  | zero =>
      cases symbol with
      | terminal text => exact always_pure ⟨⟨rfl, .leaf text⟩, Nat.zero_le _⟩
      | nonterminal name => exact absurd hleast.pos (Nat.not_lt.mpr hlevels)
  | succ levels ih =>
      cases symbol with
      | terminal text => exact always_pure ⟨⟨rfl, .leaf text⟩, Nat.zero_le _⟩
      | nonterminal name =>
          have hknown := (Grammar.least_heights_iff hn).mpr hleast
          rw [grow_nonterminal hleast.mem_names]
          refine (always_choose (candidates_ne_nil hknown)).bind fun alternative hmem => ?_
          obtain ⟨hexpands, hfalls⟩ := lt_of_mem_candidates hn hleast hmem
          -- the trees below share one bound, a level less than the node's own
          have hbelow : ∀ child ∈ alternative, Always (grow g g.heights levels (budget - 1) child)
              fun t => t ∈ g.derivationTrees child ∧ t.height ≤ max budget least - 1 := by
            intro child hchild
            obtain ⟨low, hlow, hlt⟩ := hfalls child hchild
            have hbudget_below : budget - 1 ≤ levels := by omega
            have hgrow := ih hlow hbudget_below (by omega)
            exact hgrow.imp fun t ht => ⟨ht.1, by omega⟩
          have hpos := hleast.pos
          refine (Always.mapM hbelow).bind fun children hchildren => always_pure ?_
          obtain ⟨hrows, hheights⟩ := Grammar.forall₂_derivationTrees_iff.mp hchildren
          refine ⟨Grammar.mem_derivationTrees_nonterminal.mpr
            ⟨alternative, hexpands, children, hrows, rfl⟩, ?_⟩
          rw [Tree.height]
          omega

/-- More levels than the greater of the budget and the least height change nothing. -/
theorem grow_levels (hn : g.names.Nodup) {levels more budget least : Nat} {symbol : Symbol}
    (hleast : g.LeastHeight symbol least) (hlevels : max budget least ≤ levels) (hmore : levels ≤ more) :
    grow g g.heights more budget symbol = grow g g.heights levels budget symbol := by
  induction levels generalizing more budget least symbol with
  | zero =>
      cases symbol with
      | terminal text => cases more <;> rfl
      | nonterminal name =>
          have hpos := hleast.pos
          omega
  | succ levels ih =>
      obtain ⟨more, rfl⟩ : ∃ lower, more = lower + 1 := ⟨more - 1, by omega⟩
      cases symbol with
      | terminal text => rfl
      | nonterminal name =>
          rw [grow_nonterminal hleast.mem_names, grow_nonterminal hleast.mem_names]
          refine choose_bind_congr fun alternative hmem => ?_
          obtain ⟨-, hfalls⟩ := lt_of_mem_candidates hn hleast hmem
          have hbelow : ∀ child ∈ alternative, grow g g.heights more (budget - 1) child =
              grow g g.heights levels (budget - 1) child := by
            intro child hchild
            obtain ⟨low, hlow, hlt⟩ := hfalls child hchild
            exact ih hlow (by omega) (by omega)
          rw [mapM_congr hbelow]

/-- Every derivation tree within the budget grows from some tape. -/
theorem reaches_grow (hn : g.names.Nodup) {levels budget : Nat} {symbol : Symbol} {t : Tree}
    (ht : t ∈ g.derivationTrees symbol) (hheight : t.height ≤ budget) (hlevels : budget ≤ levels) :
    Reaches (grow g g.heights levels budget symbol) t := by
  induction levels generalizing budget symbol t with
  | zero =>
      cases symbol with
      | terminal text =>
          rw [Grammar.derivationTrees_terminal] at ht
          exact ht ▸ reaches_pure _
      | nonterminal name =>
          obtain ⟨least, hle, hleast⟩ := Grammar.exists_leastHeight_le ht
          have hpos := hleast.pos
          omega
  | succ levels ih =>
      cases symbol with
      | terminal text =>
          rw [Grammar.derivationTrees_terminal] at ht
          exact ht ▸ reaches_pure _
      | nonterminal name =>
          obtain ⟨least, hle, hleast⟩ := Grammar.exists_leastHeight_le ht
          have hknown := (Grammar.least_heights_iff hn).mpr hleast
          obtain ⟨alternative, hexpands, children, hrow, rfl⟩ :=
            Grammar.mem_derivationTrees_nonterminal.mp ht
          rw [Tree.height] at hheight hle
          obtain ⟨below, hbelow, hleast_row⟩ := Grammar.exists_leastRowHeight_le hrow
          have hof := (Grammar.ofAlternative_heights_iff hn).mpr ⟨below, hleast_row, rfl⟩
          have hmem : alternative ∈ candidates g.heights (g.alternatives name) budget :=
            (mem_candidates_iff hknown).mpr ⟨hexpands, below + 1, by omega, hof⟩
          have hrows := Grammar.forall₂_derivationTrees_iff.mpr
            ⟨hrow, show Tree.heightAll children ≤ budget - 1 by omega⟩
          rw [grow_nonterminal hleast.mem_names]
          refine (reaches_choose hmem).bind ?_
          refine Reaches.bind (Reaches.mapM (hrows.imp fun child t h => ?_)) (reaches_pure _)
          exact ih h.1 h.2 (by omega)

theorem run_grow_undefined (hname : name ∉ g.names) (heights : Heights) (levels budget : Nat)
    (source : Source) :
    (grow g heights (levels + 1) budget (.nonterminal name)).run.run source =
      (.error (.undefinedNonterminal name), source) := by
  simp only [grow, Grammar.alternatives?_eq_none.mpr hname]
  rfl

theorem run_grow_unproductive (hn : g.names.Nodup) (hname : name ∈ g.names)
    (hnone : ∀ least, ¬g.LeastHeight (.nonterminal name) least) (levels budget : Nat)
    (source : Source) :
    (grow g g.heights (levels + 1) budget (.nonterminal name)).run.run source =
      (.error (.unproductive name), source) := by
  have hknown : g.heights.least (g.alternatives name) = none := by
    refine Option.eq_none_iff_forall_ne_some.mpr fun least h => ?_
    exact hnone least ((Grammar.least_heights_iff hn).mp h)
  rw [grow_nonterminal hname, candidates_eq_nil hknown]
  exact run_bind_error (run_choose_nil source)

end Sentence

/-! ### Growing from a nonterminal -/

namespace Grammar

open Generator

variable {depth : Nat}

theorem levels_eq (hn : g.names.Nodup) {least : Nat} (hleast : g.LeastHeight (.nonterminal name) least)
    (depth : Nat) : Sentence.levels g.heights name depth = max depth least := by
  unfold Sentence.levels
  rw [(lookup_heights_iff hn).mpr hleast, Option.getD_some]

theorem grow_eq (g : Grammar) (name : String) (depth : Nat) :
    g.grow name depth =
      Sentence.grow g g.heights (Sentence.levels g.heights name depth) depth (.nonterminal name) := rfl

theorem grow_always (hn : g.names.Nodup) {least : Nat}
    (hleast : g.LeastHeight (.nonterminal name) least) (depth : Nat) :
    Always (g.grow name depth) fun t =>
      t ∈ g.derivationTrees (.nonterminal name) ∧ t.height ≤ max depth least := by
  rw [grow_eq, levels_eq hn hleast]
  exact Sentence.always_grow hn hleast (Nat.le_max_left _ _) (Nat.le_max_right _ _)

theorem grow_reaches (hn : g.names.Nodup) {t : Tree} (ht : t ∈ g.derivationTrees (.nonterminal name))
    (hheight : t.height ≤ depth) : Reaches (g.grow name depth) t :=
  Sentence.reaches_grow hn ht hheight (Nat.le_max_left _ _)

/-- Without a least height there is still a level to fail on. -/
theorem exists_levels_eq (hn : g.names.Nodup) (hnone : ∀ least, ¬g.LeastHeight (.nonterminal name) least)
    (depth : Nat) : ∃ levels, Sentence.levels g.heights name depth = levels + 1 := by
  have hknown : g.heights.lookup name = none := by
    refine Option.eq_none_iff_forall_ne_some.mpr fun least h => ?_
    exact hnone least ((lookup_heights_iff hn).mp h)
  unfold Sentence.levels
  rw [hknown, Option.getD_none]
  exact ⟨depth - 1, by omega⟩

theorem run_grow_unproductive (hn : g.names.Nodup) (hname : name ∈ g.names)
    (hnone : ∀ least, ¬g.LeastHeight (.nonterminal name) least) (depth : Nat) (source : Source) :
    (g.grow name depth).run.run source = (.error (.unproductive name), source) := by
  obtain ⟨levels, hlevels⟩ := exists_levels_eq hn hnone depth
  rw [grow_eq, hlevels]
  exact Sentence.run_grow_unproductive hn hname hnone levels depth source

theorem run_grow_undefined (hn : g.names.Nodup) (hname : name ∉ g.names) (depth : Nat)
    (source : Source) :
    (g.grow name depth).run.run source = (.error (.undefinedNonterminal name), source) := by
  obtain ⟨levels, hlevels⟩ := exists_levels_eq hn (fun least h => hname h.mem_names) depth
  rw [grow_eq, hlevels]
  exact Sentence.run_grow_undefined hname g.heights levels depth source

end Grammar

end ParseForest
