import Mathlib.Data.List.Forall2
import Mathlib.Data.List.GetD
import ParseForest.Sentence.Generate

/-! # What a generator returns

A generator `Always` returns something with a property when it does from every source, and it
`Reaches` a value when some words make it return the value, whatever comes after them on the tape.
Both pass through sequences (`Always.bind`, `Reaches.bind`) and through a list of generators run in
turn (`Always.mapM`, `Reaches.mapM`).

Everything rests on one choice: each index below `k` is picked by some one word
(`exists_word`), so a choice among alternatives reaches each of them (`reaches_choose`).

Where what follows a choice is the same for each item, or each generator of a row is, so is the whole
(`choose_bind_congr`, `mapM_congr`). -/

namespace ParseForest

/-! ### Words for every index -/

namespace Source

theorem lt_two_pow_wordBits (k : Nat) : k < Nat.pow 2 (wordBits k) :=
  calc k < Nat.pow 2 (k.log2 + 1) := Nat.lt_log2_self
    _ ≤ Nat.pow 2 (wordBits k) := Nat.pow_le_pow_right (by decide) (Nat.le_max_right 32 (k.log2 + 1))

theorem le_limit (k : Nat) : k ≤ limit k :=
  Nat.le_mul_of_pos_right k (Nat.two_pow_pos _)

/-- A word whose product is the index followed by a small remainder counts, and gives the index. -/
theorem counts_and_index_of_product {k word i remainder : Nat}
    (h : product k word = i * Nat.pow 2 (wordBits k) + remainder) (hr : remainder < k) :
    counts k word = true ∧ index k word = i := by
  have hlt : remainder < Nat.pow 2 (wordBits k) := Nat.lt_trans hr (lt_two_pow_wordBits k)
  have hmod : product k word % Nat.pow 2 (wordBits k) = remainder := by
    rw [h, Nat.mul_comm, Nat.mul_add_mod, Nat.mod_eq_of_lt hlt]
  have hdiv : product k word / Nat.pow 2 (wordBits k) = i := by
    rw [h, Nat.mul_comm, Nat.mul_add_div (Nat.zero_lt_of_lt hlt), Nat.div_eq_of_lt hlt, Nat.add_zero]
  refine ⟨?_, hdiv⟩
  unfold counts
  rw [hmod, decide_eq_true_eq]
  exact Nat.lt_of_lt_of_le hr (le_limit k)

theorem exists_word {k i : Nat} (hi : i < k) :
    ∃ word, counts k word = true ∧ index k word = i := by
  have hk : 0 < k := Nat.zero_lt_of_lt hi
  have hpow := lt_two_pow_wordBits k
  generalize hsize : Nat.pow 2 (wordBits k) = size at hpow
  -- the index times the size, rounded up to a multiple of `k`
  obtain ⟨word, hword⟩ : ∃ word, (i * size + (k - 1)) / k = word := ⟨_, rfl⟩
  have hdiv := Nat.div_add_mod (i * size + (k - 1)) k
  have hmod := Nat.mod_lt (i * size + (k - 1)) hk
  have hlt : word < size := by
    have hle : (i + 1) * size ≤ k * size := Nat.mul_le_mul_right size hi
    rw [Nat.add_mul, Nat.one_mul] at hle
    rw [← hword, Nat.div_lt_iff_lt_mul hk, Nat.mul_comm size]
    omega
  have hproduct : product k word = i * size + (k - 1 - (i * size + (k - 1)) % k) := by
    unfold product
    rw [hword] at hdiv
    rw [hsize, Nat.mod_eq_of_lt hlt, Nat.mul_comm word]
    omega
  exact ⟨word, counts_and_index_of_product (hsize ▸ hproduct) (by omega)⟩

theorem pick_of_counts {k word : Nat} (h : counts k word = true) (rest : List Nat) (taken : Nat) :
    pick k ⟨word :: rest, taken⟩ = (index k word, ⟨rest, taken + 1⟩) := by
  simp only [pick, pickFrom, h, if_true]

end Source

/-! ### Runs -/

namespace Generator

variable {α β : Type} {x : Generator α} {f : α → Generator β} {source rest : Source}

theorem run_bind_ok {a : α} (h : x.run.run source = (.ok a, rest)) :
    (x >>= f).run.run source = (f a).run.run rest := by
  rw [ExceptT.run_bind, StateT.run_bind, h]
  rfl

theorem run_bind_error {error : GenerationError} (h : x.run.run source = (.error error, rest)) :
    (x >>= f).run.run source = (.error error, rest) := by
  rw [ExceptT.run_bind, StateT.run_bind, h]
  rfl

theorem run_map {f : α → β} :
    (f <$> x).run.run source =
      ((x.run.run source).1.map f, (x.run.run source).2) := by
  rw [ExceptT.run_map, StateT.run_map]
  rfl

/-- From every source something with the property is returned. -/
def Always (x : Generator α) (property : α → Prop) : Prop :=
  ∀ source, ∃ a rest, x.run.run source = (.ok a, rest) ∧ property a

/-- Some words make the generator return the value, and the tape after them is left as it is. -/
def Reaches (x : Generator α) (a : α) : Prop :=
  ∃ words, ∀ rest taken, ∃ more,
    x.run.run ⟨words ++ rest, taken⟩ = (.ok a, ⟨rest, more⟩)

variable {property : α → Prop}

theorem always_pure {a : α} (h : property a) : Always (pure a) property :=
  fun source => ⟨a, source, rfl, h⟩

theorem reaches_pure (a : α) : Reaches (pure a) a :=
  ⟨[], fun _ taken => ⟨taken, rfl⟩⟩

theorem Always.imp {goal : α → Prop} (hx : Always x property) (h : ∀ a, property a → goal a) :
    Always x goal := by
  intro source
  obtain ⟨a, rest, hrun, ha⟩ := hx source
  exact ⟨a, rest, hrun, h a ha⟩

theorem Always.bind {goal : β → Prop} (hx : Always x property)
    (hf : ∀ a, property a → Always (f a) goal) : Always (x >>= f) goal := by
  intro source
  obtain ⟨a, rest, hrun, ha⟩ := hx source
  obtain ⟨b, last, hrest, hb⟩ := hf a ha rest
  exact ⟨b, last, (run_bind_ok hrun).trans hrest, hb⟩

theorem Reaches.bind {a : α} {b : β} (hx : Reaches x a) (hf : Reaches (f a) b) :
    Reaches (x >>= f) b := by
  obtain ⟨first, hfirst⟩ := hx
  obtain ⟨second, hsecond⟩ := hf
  refine ⟨first ++ second, fun rest taken => ?_⟩
  obtain ⟨between, hrun⟩ := hfirst (second ++ rest) taken
  obtain ⟨more, hrest⟩ := hsecond rest between
  exact ⟨more, by rw [List.append_assoc, run_bind_ok hrun, hrest]⟩

theorem Always.mapM {relation : α → β → Prop} {items : List α}
    (h : ∀ a ∈ items, Always (f a) (relation a)) :
    Always (items.mapM f) (List.Forall₂ relation items) := by
  induction items with
  | nil => exact always_pure .nil
  | cons item items ih =>
      obtain ⟨hitem, hitems⟩ := List.forall_mem_cons.mp h
      rw [List.mapM_cons]
      refine hitem.bind fun b hb => (ih hitems).bind fun bs hbs => ?_
      exact always_pure (.cons hb hbs)

theorem Reaches.mapM {items : List α} {results : List β}
    (h : List.Forall₂ (fun a b => Reaches (f a) b) items results) :
    Reaches (items.mapM f) results := by
  induction h with
  | nil => exact reaches_pure []
  | cons hitem _ ih =>
      rw [List.mapM_cons]
      exact hitem.bind (ih.bind (reaches_pure _))

end Generator

/-! ### Choices -/

namespace Sentence

open Generator

variable {name : String} {alternatives : List Alternative}

theorem run_choose_nil (source : Source) :
    (choose name []).run.run source = (.error (.unproductive name), source) := rfl

theorem run_choose_cons {first : Alternative} (source : Source) :
    (choose name (first :: alternatives)).run.run source =
      (.ok ((first :: alternatives).getD (source.pick (alternatives.length + 1)).1 first),
        (source.pick (alternatives.length + 1)).2) := rfl

theorem always_choose (hne : alternatives ≠ []) :
    Always (choose name alternatives) (· ∈ alternatives) := by
  obtain ⟨first, more, rfl⟩ := List.exists_cons_of_ne_nil hne
  intro source
  have hlt : (source.pick (more.length + 1)).1 < (first :: more).length :=
    Source.pick_lt (Nat.succ_pos _) source
  refine ⟨_, _, run_choose_cons source, ?_⟩
  rw [List.getD_eq_getElem _ _ hlt]
  exact List.getElem_mem hlt

theorem reaches_choose {alternative : Alternative} (h : alternative ∈ alternatives) :
    Reaches (choose name alternatives) alternative := by
  obtain ⟨first, more, rfl⟩ := List.exists_cons_of_ne_nil (List.ne_nil_of_mem h)
  obtain ⟨i, hlt, rfl⟩ := List.getElem_of_mem h
  obtain ⟨word, hcounts, hindex⟩ := Source.exists_word hlt
  refine ⟨[word], fun rest taken => ⟨taken + 1, ?_⟩⟩
  have hpick := Source.pick_of_counts hcounts rest taken
  rw [hindex, List.length_cons] at hpick
  rw [List.singleton_append, run_choose_cons, hpick, List.getD_eq_getElem _ _ hlt]

/-! ### Congruence -/

theorem choose_bind_congr {β : Type} {name : String} {alternatives : List Alternative}
    {f f' : Alternative → Generator β}
    (hf : ∀ alternative ∈ alternatives, f alternative = f' alternative) :
    choose name alternatives >>= f = choose name alternatives >>= f' := by
  cases alternatives with
  | nil => rfl
  | cons first rest =>
      simp only [choose, bind_assoc, pure_bind]
      refine bind_congr fun index => hf _ ?_
      by_cases hlt : index < (first :: rest).length
      · rw [List.getD_eq_getElem _ _ hlt]
        exact List.getElem_mem hlt
      · rw [List.getD_eq_default _ _ (Nat.le_of_not_lt hlt)]
        exact List.mem_cons_self

theorem mapM_congr {α β : Type} {f f' : α → Generator β} {items : List α}
    (hf : ∀ item ∈ items, f item = f' item) : items.mapM f = items.mapM f' := by
  induction items with
  | nil => rfl
  | cons item items ih =>
      obtain ⟨hitem, hitems⟩ := List.forall_mem_cons.mp hf
      rw [List.mapM_cons, List.mapM_cons, hitem, ih hitems]

end Sentence

end ParseForest
