import ParseForest.Proofs.Chart.Split

/-! # Sweeps over the rules of one span

What is known over a span grows in place while the rules are visited.  A visit only adds the
nonterminal of its rule, and only when an alternative splits the span (`visit_eq_or`); a sweep loses
nothing (`suffix_sweep`) and adds whatever was derivable before it (`mem_sweep_of_derives`).
Hence the sweeps end with a set that is closed under the rules (`recognize_closed`) and holds
nothing that closure under them does not force (`recognize_induction`), whatever the order of the
rules. -/

namespace ParseForest.Table

variable {table : Table} {tokens : List String} {rules : List Rule} {span : Span}
  {known known' : List String} {rule : Rule}

/-! ### One rule -/

theorem derives_iff :
    table.derives tokens span known rule = true ↔
      ∃ symbols ∈ rule.alternatives, ∃ boundaries,
        boundaries ∈ splits (table.fits tokens span known) symbols span := by
  unfold derives
  rw [List.any_eq_true]
  refine exists_congr fun symbols => and_congr_right fun _ => ?_
  rw [Bool.not_eq_true', List.isEmpty_eq_false_iff_exists_mem]

theorem fits_mono (h : known ⊆ known') {symbol : Symbol} {part : Span}
    (hf : table.fits tokens span known symbol part = true) :
    table.fits tokens span known' symbol part = true := by
  cases symbol with
  | terminal text => exact hf
  | nonterminal name =>
      unfold fits at hf ⊢
      simp only at hf ⊢
      split at hf
      · rename_i hpart
        rw [if_pos hpart]
        exact decide_eq_true (h (of_decide_eq_true hf))
      · rename_i hpart
        rw [if_neg hpart]
        exact hf

theorem splits_subset (h : known ⊆ known') {symbols : List Symbol} :
    splits (table.fits tokens span known) symbols span ⊆
      splits (table.fits tokens span known') symbols span := by
  intro boundaries hb
  obtain ⟨hne, rest, rfl, hfit⟩ := mem_splits.mp hb
  exact mem_splits.mpr ⟨hne, rest, rfl, hfit.imp fun _ _ _ => fits_mono h⟩

theorem derives_mono (h : known ⊆ known') (hd : table.derives tokens span known rule = true) :
    table.derives tokens span known' rule = true := by
  obtain ⟨symbols, hs, boundaries, hb⟩ := derives_iff.mp hd
  exact derives_iff.mpr ⟨symbols, hs, boundaries, splits_subset h hb⟩

/-! ### One visit -/

theorem visit_of_mem (h : rule.name ∈ known) : table.visit tokens span known rule = known := by
  unfold visit
  rw [if_pos h]

theorem visit_of_derives (h : rule.name ∉ known)
    (hd : table.derives tokens span known rule = true) :
    table.visit tokens span known rule = rule.name :: known := by
  unfold visit
  rw [if_neg h, if_pos hd]

theorem visit_eq_or (table : Table) (tokens : List String) (span : Span) (known : List String)
    (rule : Rule) :
    table.visit tokens span known rule = known ∨
      rule.name ∉ known ∧ table.derives tokens span known rule = true ∧
        table.visit tokens span known rule = rule.name :: known := by
  by_cases h : rule.name ∈ known
  · exact Or.inl (visit_of_mem h)
  · cases hd : table.derives tokens span known rule with
    | true => exact Or.inr ⟨h, rfl, visit_of_derives h hd⟩
    | false =>
        left
        unfold visit
        simp only [if_neg h, hd, Bool.false_eq_true, if_false]

theorem suffix_visit : known <:+ table.visit tokens span known rule := by
  rcases visit_eq_or table tokens span known rule with h | ⟨-, -, h⟩
  · exact ⟨[], h.symm⟩
  · exact ⟨[rule.name], h.symm⟩

/-! ### One sweep -/

theorem suffix_sweep : known <:+ table.sweep tokens rules span known := by
  unfold sweep
  induction rules generalizing known with
  | nil => exact List.suffix_refl _
  | cons rule rest ih => exact suffix_visit.trans ih

theorem sweep_keeps {motive : List String → Prop}
    (keep : ∀ known, motive known → ∀ rule ∈ rules, motive (table.visit tokens span known rule))
    (h : motive known) : motive (table.sweep tokens rules span known) := by
  unfold sweep
  induction rules generalizing known with
  | nil => exact h
  | cons rule rest ih =>
      exact ih (fun known hk r hr => keep known hk r (List.mem_cons_of_mem _ hr))
        (keep known h rule List.mem_cons_self)

/-- A sweep adds what was derivable before it: visits before that of the rule take nothing away. -/
theorem mem_sweep_of_derives (hr : rule ∈ rules)
    (hd : table.derives tokens span known rule = true) :
    rule.name ∈ table.sweep tokens rules span known := by
  unfold sweep
  induction rules generalizing known with
  | nil => exact absurd hr List.not_mem_nil
  | cons first rest ih =>
      rcases List.mem_cons.mp hr with rfl | hr
      · have hv : rule.name ∈ table.visit tokens span known rule := by
          by_cases h : rule.name ∈ known
          · rw [visit_of_mem h]
            exact h
          · rw [visit_of_derives h hd]
            exact List.mem_cons_self
        have hs : table.visit tokens span known rule <:+
            table.sweep tokens rest span (table.visit tokens span known rule) := suffix_sweep
        exact hs.subset hv
      · exact ih hr (derives_mono suffix_visit.subset hd)

/-! ### All sweeps -/

/-- The names known are names of rules, none twice. -/
def Known (rules : List Rule) (known : List String) : Prop :=
  known.Nodup ∧ known ⊆ rules.map Rule.name

theorem known_sweep (h : Known rules known) : Known rules (table.sweep tokens rules span known) := by
  refine sweep_keeps (fun known hk rule hr => ?_) h
  rcases visit_eq_or table tokens span known rule with hv | ⟨hn, -, hv⟩
  · rw [hv]
    exact hk
  · rw [hv]
    exact ⟨List.nodup_cons.mpr ⟨hn, hk.1⟩,
      List.cons_subset.mpr ⟨List.mem_map.mpr ⟨rule, hr, rfl⟩, hk.2⟩⟩

theorem known_recognize : Known rules (table.recognize tokens rules span) :=
  settle_keeps (motive := Known rules) (fun _ => known_sweep) rules.length
    ⟨List.nodup_nil, List.nil_subset _⟩

/-- The sweeps end only when another one would add nothing. -/
theorem sweep_recognize :
    table.sweep tokens rules span (table.recognize tokens rules span) =
      table.recognize tokens rules span := by
  refine settle_fixed (motive := Known rules) List.length rules.length (fun _ => known_sweep) ?_ ?_
    rules.length ⟨List.nodup_nil, List.nil_subset _⟩ (Nat.le_add_left _ _)
  · intro known hk
    have hle := hk.1.length_le_of_subset hk.2
    rwa [List.length_map] at hle
  · intro known _ hne
    have hs : known <:+ table.sweep tokens rules span known := suffix_sweep
    exact Nat.lt_of_le_of_ne hs.length_le fun he => hne (hs.eq_of_length he).symm

/-- What is recognized over a span is closed under the rules. -/
theorem recognize_closed (hr : rule ∈ rules)
    (hd : table.derives tokens span (table.recognize tokens rules span) rule = true) :
    rule.name ∈ table.recognize tokens rules span := by
  rw [← sweep_recognize]
  exact mem_sweep_of_derives hr hd

/-- What closure under the rules forces holds of all that is recognized over a span. -/
theorem recognize_induction {motive : String → Prop}
    (step : ∀ known : List String, (∀ name ∈ known, motive name) → ∀ rule ∈ rules,
      table.derives tokens span known rule = true → motive rule.name) :
    ∀ name ∈ table.recognize tokens rules span, motive name := by
  refine settle_keeps (motive := fun known => ∀ name ∈ known, motive name) (fun known hk => ?_)
    rules.length (fun _ h => absurd h List.not_mem_nil)
  refine sweep_keeps (motive := fun known => ∀ name ∈ known, motive name)
    (fun known hk rule hr => ?_) hk
  rcases visit_eq_or table tokens span known rule with hv | ⟨-, hd, hv⟩
  · rw [hv]
    exact hk
  · rw [hv]
    intro name hname
    rcases List.mem_cons.mp hname with rfl | hname
    · exact step known hk rule hr hd
    · exact hk name hname

end ParseForest.Table
