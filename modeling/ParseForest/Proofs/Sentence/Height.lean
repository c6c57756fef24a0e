import ParseForest.Proofs.Derivation.Height
import ParseForest.Sentence.Height

/-! # The sweeps find the least heights

What is known grows in place while the rules are visited, and a height found too early is too great.  A
visit puts in a lower height or does nothing (`visit_eq_or`), so known heights only fall (`lowers_sweep`).
They never fall too far, since each is that of a derivation tree (`Attained.sweep`).  And each sweep gets
one level further: when no height is too great up to some level, the visit to a nonterminal one level
higher finds its least height, whatever was visited before it (`Reaches.sweep`).

No least height exceeds the number of rules, so after as many sweeps the heights are the least heights
(`lookup_heights_iff`), and no visit changes them any more (`visit_heights`). -/

namespace ParseForest

variable {g : Grammar}

namespace Heights

variable {known known' : Heights} {rule : Rule} {bound height : Nat}

/-! ### What is known of the symbols of an alternative -/

theorem deepest_cons_iff {symbol : Symbol} {symbols : List Symbol} :
    known.deepest (symbol :: symbols) = some height ↔
      ∃ first, known.ofSymbol symbol = some first ∧
        ∃ rest, known.deepest symbols = some rest ∧ height = max first rest := by
  rw [deepest]
  cases known.ofSymbol symbol <;> cases known.deepest symbols <;> simp [eq_comm]

theorem ofAlternative_eq_some_iff {alternative : Alternative} :
    known.ofAlternative alternative = some height ↔
      ∃ below, known.deepest alternative = some below ∧ height = below + 1 := by
  unfold ofAlternative
  rw [Option.map_eq_some_iff]
  simp only [eq_comm]

theorem least_eq_some_iff {alternatives : List Alternative} :
    known.least alternatives = some height ↔
      (∃ alternative ∈ alternatives, known.ofAlternative alternative = some height) ∧
      ∀ alternative ∈ alternatives, ∀ other,
        known.ofAlternative alternative = some other → height ≤ other := by
  unfold least
  rw [List.min?_eq_some_iff, List.mem_filterMap]
  refine and_congr_right fun _ => ⟨fun h alternative hmem other hother => ?_, fun h other hother => ?_⟩
  · exact h other (List.mem_filterMap.mpr ⟨alternative, hmem, hother⟩)
  · obtain ⟨alternative, hmem, heq⟩ := List.mem_filterMap.mp hother
    exact h alternative hmem other heq

theorem exists_least_le {alternatives : List Alternative} {alternative : Alternative}
    (hmem : alternative ∈ alternatives) (h : known.ofAlternative alternative = some height) :
    ∃ low ≤ height, known.least alternatives = some low := by
  cases hleast : known.least alternatives with
  | none =>
      unfold least at hleast
      rw [List.min?_eq_none_iff, List.filterMap_eq_nil_iff] at hleast
      rw [hleast alternative hmem] at h
      exact absurd h.symm (Option.some_ne_none height)
  | some low => exact ⟨low, (least_eq_some_iff.mp hleast).2 alternative hmem height h, rfl⟩

/-! ### One visit -/

theorem lookup_filter_ne {name other : String} (h : other ≠ name) (known : Heights) :
    (known.filter fun entry => entry.1 ≠ name).lookup other = known.lookup other := by
  induction known with
  | nil => rfl
  | cons entry known ih =>
      obtain ⟨first, height⟩ := entry
      by_cases hfirst : first = name
      · subst hfirst
        rw [List.filter_cons_of_neg (by simp), ih, List.lookup_cons, beq_false_of_ne h]
      · rw [List.filter_cons_of_pos (by simpa using hfirst), List.lookup_cons, List.lookup_cons, ih]

theorem lookup_put (known : Heights) (name other : String) (height : Nat) :
    (known.put name height).lookup other =
      if other = name then some height else known.lookup other := by
  unfold put
  by_cases h : other = name
  · subst h
    rw [List.lookup_cons_self, if_pos rfl]
  · rw [List.lookup_cons, beq_false_of_ne h, if_neg h]
    exact lookup_filter_ne h known

theorem improves_iff {name : String} :
    known.improves name height = true ↔
      ∀ current, known.lookup name = some current → height < current := by
  unfold improves
  cases known.lookup name <;> simp

theorem visit_eq_or (known : Heights) (rule : Rule) :
    (known.visit rule = known ∧ ∀ height, known.least rule.alternatives = some height →
      ∃ current ≤ height, known.lookup rule.name = some current) ∨
    ∃ height, known.least rule.alternatives = some height ∧
      (∀ current, known.lookup rule.name = some current → height < current) ∧
      known.visit rule = known.put rule.name height := by
  unfold visit
  cases known.least rule.alternatives with
  | none => exact Or.inl ⟨rfl, nofun⟩
  | some height =>
      by_cases h : known.improves rule.name height = true
      · exact Or.inr ⟨height, rfl, improves_iff.mp h, if_pos h⟩
      · refine Or.inl ⟨if_neg h, fun other hother => ?_⟩
        obtain rfl := Option.some.inj hother
        rw [improves_iff] at h
        push Not at h
        obtain ⟨current, hcurrent, hle⟩ := h
        exact ⟨current, hle, hcurrent⟩

/-! ### Known heights only fall -/

/-- Whatever is known has as low a height, or a lower one. -/
def Lowers (known' known : Heights) : Prop :=
  ∀ name height, known.lookup name = some height →
    ∃ lower ≤ height, known'.lookup name = some lower

theorem Lowers.refl (known : Heights) : known.Lowers known :=
  fun _ height h => ⟨height, Nat.le_refl height, h⟩

theorem Lowers.trans {known'' : Heights} (h' : known''.Lowers known') (h : known'.Lowers known) :
    known''.Lowers known := by
  intro name height hname
  obtain ⟨lower, hle, hlower⟩ := h name height hname
  obtain ⟨lowest, hle', hlowest⟩ := h' name lower hlower
  exact ⟨lowest, hle'.trans hle, hlowest⟩

theorem lowers_visit (known : Heights) (rule : Rule) : (known.visit rule).Lowers known := by
  rcases visit_eq_or known rule with ⟨hvisit, -⟩ | ⟨height, -, hlower, hvisit⟩
  · rw [hvisit]
    exact Lowers.refl known
  · intro name current hname
    rw [hvisit, lookup_put]
    by_cases heq : name = rule.name
    · subst heq
      exact ⟨height, (hlower current hname).le, if_pos rfl⟩
    · exact ⟨current, Nat.le_refl current, by rw [if_neg heq, hname]⟩

theorem lowers_sweep (rules : List Rule) (known : Heights) : (sweep rules known).Lowers known := by
  induction rules generalizing known with
  | nil => exact Lowers.refl known
  | cons rule rest ih => exact (ih (known.visit rule)).trans (lowers_visit known rule)

theorem visit_eq_self_of_lowers (h : known.Lowers (known.visit rule)) : known.visit rule = known := by
  rcases visit_eq_or known rule with ⟨hvisit, -⟩ | ⟨height, -, hlower, hvisit⟩
  · exact hvisit
  · have hput : (known.visit rule).lookup rule.name = some height := by
      rw [hvisit, lookup_put, if_pos rfl]
    obtain ⟨current, hle, hcurrent⟩ := h rule.name height hput
    exact absurd hle (Nat.not_le.mpr (hlower current hcurrent))

/-- A sweep changes nothing exactly when none of its visits does: what is known before and after a sweep
tells as much as watching the visits. -/
theorem sweep_eq_self_iff {rules : List Rule} :
    sweep rules known = known ↔ ∀ rule ∈ rules, known.visit rule = known := by
  induction rules with
  | nil => exact ⟨fun _ _ h => absurd h List.not_mem_nil, fun _ => rfl⟩
  | cons rule rest ih =>
      have hcons : sweep (rule :: rest) known = sweep rest (known.visit rule) := rfl
      rw [List.forall_mem_cons, ← ih, hcons]
      constructor
      · intro h
        have hlowers := lowers_sweep rest (known.visit rule)
        rw [h] at hlowers
        have hfirst := visit_eq_self_of_lowers hlowers
        rw [hfirst] at h
        exact ⟨hfirst, h⟩
      · intro ⟨hfirst, hrest⟩
        rw [hfirst, hrest]

/-! ### Known heights are attained -/

/-- Each height known is that of a derivation tree. -/
def Attained (known : Heights) (g : Grammar) : Prop :=
  ∀ name height, known.lookup name = some height →
    ∃ t ∈ g.derivationTrees (.nonterminal name), t.height = height

theorem Attained.ofSymbol (h : known.Attained g) {symbol : Symbol}
    (hsymbol : known.ofSymbol symbol = some height) :
    ∃ t ∈ g.derivationTrees symbol, t.height = height := by
  cases symbol with
  | nonterminal name => exact h name height hsymbol
  | terminal text => exact ⟨.leaf text, ⟨rfl, .leaf text⟩, Option.some.inj hsymbol⟩

theorem Attained.deepest (h : known.Attained g) {symbols : List Symbol}
    (hsymbols : known.deepest symbols = some height) :
    ∃ ts ∈ g.derivationRows symbols, Tree.heightAll ts = height := by
  induction symbols generalizing height with
  | nil =>
      obtain rfl := Option.some.inj hsymbols
      exact ⟨[], ⟨rfl, fun t ht => absurd ht List.not_mem_nil⟩, rfl⟩
  | cons symbol symbols ih =>
      obtain ⟨first, hfirst, rest, hrest, rfl⟩ := deepest_cons_iff.mp hsymbols
      obtain ⟨t, ht, rfl⟩ := h.ofSymbol hfirst
      obtain ⟨ts, hts, rfl⟩ := ih hrest
      exact ⟨t :: ts, Grammar.mem_derivationRows_cons.mpr ⟨t, ht, ts, hts, rfl⟩, rfl⟩

theorem Attained.least (h : known.Attained g) {name : String}
    (hleast : known.least (g.alternatives name) = some height) :
    ∃ t ∈ g.derivationTrees (.nonterminal name), t.height = height := by
  obtain ⟨⟨alternative, hmem, hheight⟩, -⟩ := least_eq_some_iff.mp hleast
  obtain ⟨below, hbelow, rfl⟩ := ofAlternative_eq_some_iff.mp hheight
  obtain ⟨ts, hts, rfl⟩ := h.deepest hbelow
  refine ⟨.node (.nonterminal name) ts,
    Grammar.mem_derivationTrees_nonterminal.mpr ⟨alternative, hmem, ts, hts, rfl⟩, ?_⟩
  rw [Tree.height, Nat.add_comm]

theorem Attained.visit (h : known.Attained g) (hn : g.names.Nodup) (hrule : rule ∈ g.rules) :
    (known.visit rule).Attained g := by
  rcases visit_eq_or known rule with ⟨hvisit, -⟩ | ⟨height, hleast, -, hvisit⟩
  · rw [hvisit]
    exact h
  · intro name other hname
    rw [hvisit, lookup_put] at hname
    by_cases heq : name = rule.name
    · subst heq
      rw [if_pos rfl] at hname
      obtain rfl := Option.some.inj hname
      rw [← Grammar.alternatives_of_mem hn hrule] at hleast
      exact h.least hleast
    · rw [if_neg heq] at hname
      exact h name other hname

theorem Attained.sweep (h : known.Attained g) (hn : g.names.Nodup) {rules : List Rule}
    (hrules : rules ⊆ g.rules) : (Heights.sweep rules known).Attained g := by
  induction rules generalizing known with
  | nil => exact h
  | cons rule rest ih =>
      obtain ⟨hrule, hrest⟩ := List.cons_subset.mp hrules
      exact ih (h.visit hn hrule) hrest

/-! ### Each sweep gets one level further -/

/-- No height is too great of a nonterminal up to some level, and none of these is missing. -/
def Reaches (known : Heights) (g : Grammar) (bound : Nat) : Prop :=
  ∀ name least, least ≤ bound → g.LeastHeight (.nonterminal name) least →
    ∃ height ≤ least, known.lookup name = some height

theorem Reaches.lowers (h : known.Reaches g bound) (hl : known'.Lowers known) :
    known'.Reaches g bound := by
  intro name least hle hleast
  obtain ⟨height, hheight, hname⟩ := h name least hle hleast
  obtain ⟨lower, hlower, hname'⟩ := hl name height hname
  exact ⟨lower, hlower.trans hheight, hname'⟩

theorem Reaches.ofSymbol (h : known.Reaches g bound) {symbol : Symbol} {least : Nat}
    (hle : least ≤ bound) (hleast : g.LeastHeight symbol least) :
    ∃ height ≤ least, known.ofSymbol symbol = some height := by
  cases symbol with
  | nonterminal name => exact h name least hle hleast
  | terminal text => exact ⟨0, Nat.zero_le least, rfl⟩

theorem Reaches.deepest (h : known.Reaches g bound) {symbols : List Symbol} {least : Nat}
    (hle : least ≤ bound) (hleast : g.LeastRowHeight symbols least) :
    ∃ height ≤ least, known.deepest symbols = some height := by
  induction symbols generalizing least with
  | nil => exact ⟨0, Nat.zero_le least, rfl⟩
  | cons symbol symbols ih =>
      obtain ⟨first, hfirst, rest, hrest, rfl⟩ := Grammar.leastRowHeight_cons.mp hleast
      obtain ⟨hfirst_le, hrest_le⟩ := Nat.max_le.mp hle
      obtain ⟨height, hheight, hknown⟩ := h.ofSymbol hfirst_le hfirst
      obtain ⟨more, hmore, hknown'⟩ := ih hrest_le hrest
      exact ⟨max height more, max_le_max hheight hmore,
        deepest_cons_iff.mpr ⟨height, hknown, more, hknown', rfl⟩⟩

theorem Reaches.least (h : known.Reaches g bound) {name : String} {least : Nat}
    (hle : least ≤ bound + 1) (hleast : g.LeastHeight (.nonterminal name) least) :
    ∃ height ≤ least, known.least (g.alternatives name) = some height := by
  obtain ⟨⟨alternative, hmem, below, hrow, rfl⟩, -⟩ := Grammar.leastHeight_nonterminal.mp hleast
  obtain ⟨height, hheight, hknown⟩ := h.deepest (Nat.le_of_succ_le_succ hle) hrow
  have hnode : known.ofAlternative alternative = some (height + 1) :=
    ofAlternative_eq_some_iff.mpr ⟨height, hknown, rfl⟩
  obtain ⟨low, hlow, hleast_known⟩ := exists_least_le hmem hnode
  exact ⟨low, hlow.trans (Nat.succ_le_succ hheight), hleast_known⟩

/-- The visit to a nonterminal one level higher finds its least height. -/
theorem Reaches.visit (h : known.Reaches g bound) (hn : g.names.Nodup) (hrule : rule ∈ g.rules)
    {least : Nat} (hle : least ≤ bound + 1) (hleast : g.LeastHeight (.nonterminal rule.name) least) :
    ∃ height ≤ least, (known.visit rule).lookup rule.name = some height := by
  obtain ⟨low, hlow, hknown⟩ := h.least hle hleast
  rw [Grammar.alternatives_of_mem hn hrule] at hknown
  rcases visit_eq_or known rule with ⟨hvisit, hcurrent⟩ | ⟨height, hheight, -, hvisit⟩
  · obtain ⟨current, hcurrent_le, hlookup⟩ := hcurrent low hknown
    rw [hvisit]
    exact ⟨current, hcurrent_le.trans hlow, hlookup⟩
  · obtain rfl := Option.some.inj (hknown.symm.trans hheight)
    exact ⟨low, hlow, by rw [hvisit, lookup_put, if_pos rfl]⟩

theorem sweep_append (before after : List Rule) (known : Heights) :
    sweep (before ++ after) known = sweep after (sweep before known) :=
  List.foldl_append

theorem Reaches.sweep (h : known.Reaches g bound) (hn : g.names.Nodup) :
    (Heights.sweep g.rules known).Reaches g (bound + 1) := by
  intro name least hle hleast
  obtain ⟨rule, hrule, rfl⟩ := List.mem_map.mp hleast.mem_names
  obtain ⟨before, after, hsplit⟩ := List.append_of_mem hrule
  -- the visits before that of the rule lower what is known, and so do those after it
  have hbefore : (Heights.sweep before known).Reaches g bound := h.lowers (lowers_sweep before known)
  obtain ⟨height, hheight, hfound⟩ := hbefore.visit hn hrule hle hleast
  obtain ⟨lower, hlower, hkept⟩ := lowers_sweep after _ rule.name height hfound
  refine ⟨lower, hlower.trans hheight, ?_⟩
  rw [hsplit, sweep_append]
  exact hkept

/-! ### All sweeps -/

theorem attained_nil : Attained [] g :=
  fun _ _ h => absurd h.symm (Option.some_ne_none _)

theorem reaches_nil : Reaches [] g 0 :=
  fun _ _ hle hleast => absurd hleast.pos (Nat.not_lt.mpr hle)

theorem Reaches.iterate (h : known.Reaches g bound) (hn : g.names.Nodup) (sweeps : Nat) :
    (iterate (Heights.sweep g.rules) sweeps known).Reaches g (bound + sweeps) := by
  induction sweeps generalizing known bound with
  | zero => exact h
  | succ sweeps ih =>
      rw [ParseForest.iterate, Nat.add_comm sweeps, ← Nat.add_assoc]
      exact ih (h.sweep hn)

/-- The heights known are the least heights. -/
def Exact (known : Heights) (g : Grammar) : Prop :=
  ∀ name height, known.lookup name = some height ↔ g.LeastHeight (.nonterminal name) height

/-- Heights that are attained are exact when none is too great. -/
theorem Attained.exact (h : known.Attained g) (hr : known.Reaches g g.rules.length) :
    known.Exact g := by
  intro name height
  constructor
  · intro hname
    obtain ⟨t, ht, rfl⟩ := h name height hname
    obtain ⟨least, hle, hleast⟩ := Grammar.exists_leastHeight_le ht
    obtain ⟨low, hlow, hname'⟩ := hr name least hleast.le_length_rules hleast
    obtain rfl := Option.some.inj (hname.symm.trans hname')
    rwa [hle.antisymm' hlow]
  · intro hleast
    obtain ⟨low, hlow, hname⟩ := hr name height hleast.le_length_rules hleast
    obtain ⟨t, ht, rfl⟩ := h name low hname
    rwa [hlow.antisymm (hleast.2 ⟨t, ht, rfl⟩)] at hname

theorem Exact.ofSymbol_iff (h : known.Exact g) {symbol : Symbol} :
    known.ofSymbol symbol = some height ↔ g.LeastHeight symbol height := by
  cases symbol with
  | nonterminal name => exact h name height
  | terminal text =>
      rw [Grammar.leastHeight_terminal, ofSymbol, Option.some.injEq]
      exact eq_comm

theorem Exact.deepest_iff (h : known.Exact g) {symbols : List Symbol} :
    known.deepest symbols = some height ↔ g.LeastRowHeight symbols height := by
  induction symbols generalizing height with
  | nil =>
      rw [Grammar.leastRowHeight_nil, deepest, Option.some.injEq]
      exact eq_comm
  | cons symbol symbols ih =>
      rw [deepest_cons_iff, Grammar.leastRowHeight_cons]
      simp only [h.ofSymbol_iff, ih]

theorem Exact.ofAlternative_iff (h : known.Exact g) {alternative : Alternative} :
    known.ofAlternative alternative = some height ↔
      ∃ below, g.LeastRowHeight alternative below ∧ height = below + 1 := by
  rw [ofAlternative_eq_some_iff]
  simp only [h.deepest_iff]

theorem Exact.least_iff (h : known.Exact g) {name : String} :
    known.least (g.alternatives name) = some height ↔ g.LeastHeight (.nonterminal name) height := by
  rw [least_eq_some_iff, Grammar.leastHeight_nonterminal]
  simp only [h.ofAlternative_iff, forall_exists_index, and_imp]
  refine and_congr_right fun _ => forall₂_congr fun alternative _ => ⟨fun hle below hbelow => ?_, ?_⟩
  · exact hle _ below hbelow rfl
  · rintro hle _ below hbelow rfl
    exact hle below hbelow

end Heights

/-! ### The heights of a grammar -/

namespace Grammar

variable {height : Nat}

theorem heights_exact (hn : g.names.Nodup) : g.heights.Exact g := by
  have hattained : g.heights.Attained g :=
    settle_keeps (motive := fun known => Heights.Attained known g)
      (fun known h => h.sweep hn (List.Subset.refl g.rules)) g.rules.length Heights.attained_nil
  have hreaches := Heights.reaches_nil.iterate hn g.rules.length
  rw [Nat.zero_add, ← settle_eq_iterate] at hreaches
  exact hattained.exact hreaches

/-- **The heights of a grammar are the least heights of derivation trees.** -/
theorem lookup_heights_iff (hn : g.names.Nodup) {name : String} :
    g.heights.lookup name = some height ↔ g.LeastHeight (.nonterminal name) height :=
  heights_exact hn name height

theorem ofAlternative_heights_iff (hn : g.names.Nodup) {alternative : Alternative} :
    g.heights.ofAlternative alternative = some height ↔
      ∃ below, g.LeastRowHeight alternative below ∧ height = below + 1 :=
  (heights_exact hn).ofAlternative_iff

theorem least_heights_iff (hn : g.names.Nodup) {name : String} :
    g.heights.least (g.alternatives name) = some height ↔
      g.LeastHeight (.nonterminal name) height :=
  (heights_exact hn).least_iff

theorem visit_heights (hn : g.names.Nodup) {rule : Rule} (hrule : rule ∈ g.rules) :
    g.heights.visit rule = g.heights := by
  rcases Heights.visit_eq_or g.heights rule with ⟨hvisit, -⟩ | ⟨height, hleast, hlower, -⟩
  · exact hvisit
  · rw [← alternatives_of_mem hn hrule, least_heights_iff hn] at hleast
    exact absurd (hlower height ((lookup_heights_iff hn).mpr hleast)) (Nat.lt_irrefl height)

theorem exists_settles_heights (hn : g.names.Nodup) :
    ∃ sweeps ≤ g.rules.length, Settles (Heights.sweep g.rules) sweeps [] g.heights :=
  exists_settles (Heights.sweep_eq_self_iff.mpr fun _ hrule => visit_heights hn hrule)

end Grammar

end ParseForest
