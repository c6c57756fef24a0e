import Mathlib.Data.Set.Basic
import ParseForest.Grammar.Reachable
import ParseForest.Proofs.Grammar.Rules

/-! # Grammars that agree on some nonterminals

Two grammars agree on a set of nonterminals when they give each of them the same alternatives and no
alternative leads out of the set.  Then nothing below a nonterminal of the set depends on the other
rules: a derivation of one grammar from there is a derivation of the other
(`AgreeOn.derives_iff`).  Grammars with the same start symbol that give the reachable nonterminals the
same alternatives agree on these (`agreeOn_reachable`), and grammars that are the same agree on all
(`Same.agreeOn_univ`). -/

namespace ParseForest

/-- The symbol is a terminal, or one of the nonterminals. -/
def Symbol.Within (names : Set String) (symbol : Symbol) : Prop :=
  ∀ name, symbol = .nonterminal name → name ∈ names

@[simp] theorem Symbol.within_terminal {names : Set String} {text : String} :
    (Symbol.terminal text).Within names :=
  fun _ h => nomatch h

@[simp] theorem Symbol.within_nonterminal {names : Set String} {name : String} :
    (Symbol.nonterminal name).Within names ↔ name ∈ names :=
  ⟨fun h => h name rfl, fun h _ heq => Symbol.nonterminal.inj heq ▸ h⟩

/-- From the nonterminals on, a derivation passes over to what expands them alike. -/
theorem Tree.Derives.of_within {names : Set String} {expands expands' : String → Alternative → Prop}
    (h : ∀ name ∈ names, ∀ alternative, expands name alternative →
      expands' name alternative ∧ ∀ symbol ∈ alternative, symbol.Within names)
    {t : Tree} (hd : t.Derives expands) (hroot : t.root.Within names) : t.Derives expands' := by
  induction hd with
  | leaf text => exact .leaf text
  | node name children hexpands _ ih =>
      obtain ⟨hexpands', hwithin⟩ := h name (Symbol.within_nonterminal.mp hroot) _ hexpands
      refine .node name children hexpands' fun child hmem => ih child hmem ?_
      exact hwithin _ (List.mem_map.mpr ⟨child, hmem, rfl⟩)

namespace Grammar

variable {g h : Grammar} {names : Set String}

/-- The grammars have the same alternatives for the nonterminals, and these lead to no others. -/
structure AgreeOn (names : Set String) (g h : Grammar) : Prop where
  alternatives?_eq : ∀ name ∈ names, g.alternatives? name = h.alternatives? name
  closed : ∀ name ∈ names, ∀ alternative, g.Expands name alternative →
    ∀ symbol ∈ alternative, symbol.Within names

namespace AgreeOn

theorem alternatives_eq (ha : g.AgreeOn names h) {name : String} (hname : name ∈ names) :
    g.alternatives name = h.alternatives name := by
  simp only [alternatives, ha.alternatives?_eq name hname]

theorem symm (ha : g.AgreeOn names h) : h.AgreeOn names g := by
  refine ⟨fun name hname => (ha.alternatives?_eq name hname).symm, fun name hname alternative he => ?_⟩
  unfold Expands at he
  rw [← ha.alternatives_eq hname] at he
  exact ha.closed name hname alternative he

theorem expands (ha : g.AgreeOn names h) {name : String} (hname : name ∈ names)
    {alternative : Alternative} (he : g.Expands name alternative) :
    h.Expands name alternative ∧ ∀ symbol ∈ alternative, symbol.Within names := by
  refine ⟨?_, ha.closed name hname alternative he⟩
  unfold Expands at he ⊢
  rwa [← ha.alternatives_eq hname]

theorem derives_iff (ha : g.AgreeOn names h) {t : Tree} (hroot : t.root.Within names) :
    t.Derives g.Expands ↔ t.Derives h.Expands :=
  ⟨fun hd => hd.of_within (fun _ hname _ => ha.expands hname) hroot,
    fun hd => hd.of_within (fun _ hname _ => ha.symm.expands hname) hroot⟩

theorem expandsProperly (ha : g.AgreeOn names h) {name : String} (hname : name ∈ names)
    {alternative : Alternative} (he : g.ExpandsProperly name alternative) :
    h.ExpandsProperly name alternative ∧ ∀ symbol ∈ alternative, symbol.Within names := by
  obtain ⟨hexpands, hwithin⟩ := ha.expands hname he.2
  exact ⟨⟨he.1, hexpands⟩, hwithin⟩

theorem derivesProperly_iff (ha : g.AgreeOn names h) {t : Tree} (hroot : t.root.Within names) :
    t.Derives g.ExpandsProperly ↔ t.Derives h.ExpandsProperly :=
  ⟨fun hd => hd.of_within (fun _ hname _ => ha.expandsProperly hname) hroot,
    fun hd => hd.of_within (fun _ hname _ => ha.symm.expandsProperly hname) hroot⟩

end AgreeOn

theorem agreeOn_reachable
    (hreachable : ∀ name, g.Reachable name → g.alternatives? name = h.alternatives? name) :
    g.AgreeOn {name | g.Reachable name} h := by
  refine ⟨hreachable, fun name hname alternative he symbol hmem child hchild => ?_⟩
  subst hchild
  exact Reachable.step hname he hmem

theorem Same.agreeOn_univ (hs : g.Same h) : g.AgreeOn Set.univ h :=
  ⟨fun name _ => hs.2 name, fun _ _ _ _ _ _ _ _ => trivial⟩

end Grammar

end ParseForest
