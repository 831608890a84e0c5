import Predictive.Proofs.Derives
import Predictive.Proofs.Rebuilding

/-!
# The languages that rules define

A grammar made of rules can be reasoned about by names, without its numbers. `Spells L u w` reads each
nonterminal in `u` as some string of its language by `L`, and a family of languages is closed under the
rules if what a right-hand side spells is in the language of the name on the left. The strings that the
grammar derives from its nonterminals are the least such family: they are one
(`closedUnder_generates`), and every other one contains them (`of_generates`).
-/

namespace Predictive

section
variable {T N M : Type} {L : N → List T → Prop} {u v : List (Symbol T N)} {w : List T}

/-- The symbols make up the string, each nonterminal by a string of its language. -/
@[simp] def Spells (L : N → List T → Prop) : List (Symbol T N) → List T → Prop
  | [], w => w = []
  | .terminal t :: u, w => ∃ v, w = t :: v ∧ Spells L u v
  | .nonterminal x :: u, w => ∃ a b, w = a ++ b ∧ L x a ∧ Spells L u b
  | .epsilon :: u, w => Spells L u w

theorem spells_nonterminal {x : N} : Spells L [.nonterminal x] w ↔ L x w := by
  simp

theorem spells_append : Spells L (u ++ v) w ↔ ∃ a b, w = a ++ b ∧ Spells L u a ∧ Spells L v b := by
  induction u generalizing w with
  | nil => simp [Spells]
  | cons s u ih =>
    cases s with
    | terminal t =>
      simp only [List.cons_append, Spells, ih]
      constructor
      · rintro ⟨_, rfl, a, b, rfl, ha, hb⟩
        exact ⟨t :: a, b, rfl, ⟨a, rfl, ha⟩, hb⟩
      · rintro ⟨_, b, rfl, ⟨a, rfl, ha⟩, hb⟩
        exact ⟨a ++ b, rfl, a, b, rfl, ha, hb⟩
    | nonterminal x =>
      simp only [List.cons_append, Spells, ih]
      constructor
      · rintro ⟨c, _, rfl, hc, a, b, rfl, ha, hb⟩
        exact ⟨c ++ a, b, by simp, ⟨c, a, rfl, hc, ha⟩, hb⟩
      · rintro ⟨_, b, rfl, ⟨c, a, rfl, hc, ha⟩, hb⟩
        exact ⟨c, a ++ b, by simp, hc, a, b, rfl, ha, hb⟩
    | epsilon => exact ih

theorem spells_of_epsilon (h : ∀ s ∈ u, s = .epsilon) : Spells L u w ↔ w = [] := by
  induction u with
  | nil => rfl
  | cons s u ih =>
    obtain rfl := h s (List.mem_cons_self ..)
    exact ih fun s hs => h s (List.mem_cons_of_mem _ hs)

theorem spells_map_rename {L : M → List T → Prop} {f : N → M} :
    Spells L (u.map (Symbol.rename f)) w ↔ Spells (fun x => L (f x)) u w := by
  induction u generalizing w with
  | nil => rfl
  | cons s u ih => cases s <;> simp only [List.map_cons, Symbol.rename, Spells, ih]

theorem Spells.mono {L' : N → List T → Prop} (h : Spells L u w) (hL : ∀ x w, L x w → L' x w) :
    Spells L' u w := by
  induction u generalizing w with
  | nil => exact h
  | cons s u ih =>
    cases s with
    | terminal t =>
      obtain ⟨v, rfl, hv⟩ := h
      exact ⟨v, rfl, ih hv⟩
    | nonterminal x =>
      obtain ⟨a, b, rfl, ha, hb⟩ := h
      exact ⟨a, b, rfl, hL x a ha, ih hb⟩
    | epsilon => exact ih (w := w) h

end

section
variable {T : Type}

/-- What a right-hand side spells is in the language of its left-hand side. -/
def ClosedUnder (rules : List (Rule T)) (L : String → List T → Prop) : Prop :=
  ∀ r ∈ rules, ∀ w, Spells L r.right w → L r.left w

theorem ClosedUnder.append {rules rules' : List (Rule T)} {L : String → List T → Prop}
    (h : ClosedUnder rules L) (h' : ClosedUnder rules' L) : ClosedUnder (rules ++ rules') L := by
  intro r hr
  rcases List.mem_append.1 hr with hr | hr
  · exact h r hr
  · exact h' r hr

namespace Grammar
variable {g : Grammar T}

/-- A nonterminal of that name derives the string. -/
def Generates (g : Grammar T) (name : String) (w : List T) : Prop :=
  ∃ x, g.name x = name ∧ g.Derives [.nonterminal x] (w.map .terminal)

theorem derives_of_spells {u : g.Form} {w : List T}
    (h : Spells (fun x w => g.Derives [.nonterminal x] (w.map .terminal)) u w) :
    g.Derives u (w.map .terminal) := by
  induction u generalizing w with
  | nil =>
    obtain rfl := h
    exact .refl []
  | cons s u ih =>
    cases s with
    | terminal t =>
      obtain ⟨v, rfl, hv⟩ := h
      exact (Derives.refl [.terminal t]).append (ih hv)
    | nonterminal x =>
      obtain ⟨a, b, rfl, ha, hb⟩ := h
      rw [List.map_append]
      exact ha.append (ih hb)
    | epsilon => exact derives_drop (ih h)

theorem exists_right_eq {x : g.Nonterminal} {u : g.Form} (hu : u ∈ g.alternativesOf x) :
    ∃ i, Production.right ⟨x, i⟩ = u := by
  obtain ⟨i, hi, rfl⟩ := List.getElem_of_mem hu
  exact ⟨⟨i, hi⟩, rfl⟩

variable [Terminal T] {start : String} {rules : List (Rule T)}

/-- The production says what the rule says. -/
def Production.Says (p : g.Production) (r : Rule T) : Prop :=
  g.name p.left = r.left ∧
    ((p.right = [.epsilon] ∧ ∀ s ∈ r.right, s = .epsilon) ∨ p.right.map (Symbol.rename g.name) = r.right)

omit [Terminal T] in
theorem Production.Says.spells {p : g.Production} {r : Rule T} (h : p.Says r)
    {L : String → List T → Prop} {w : List T} :
    Spells (fun x => L (g.name x)) p.right w ↔ Spells L r.right w := by
  rcases h.2 with ⟨hp, hr⟩ | hp
  · rw [hp, spells_of_epsilon hr]
    rfl
  · rw [← hp, spells_map_rename]

section
variable (h : ofRules start rules = .ok g)
include h

theorem exists_rule_says (p : g.Production) : ∃ r ∈ rules, p.Says r := by
  obtain ⟨-, x, resolved, -, -, -, honly, rfl⟩ := exists_of_ofRules h
  obtain ⟨r, hr, hmade⟩ := honly _ (mem_alternatives_ofFn.1 p.right_mem)
  refine ⟨r, hr, hmade.left, ?_⟩
  rcases resolveRight_ok hmade.right with hright | ⟨hright, -⟩
  · exact .inl hright
  · exact .inr hright

theorem exists_production_says {r : Rule T} (hr : r ∈ rules) : ∃ p : g.Production, p.Says r := by
  obtain ⟨-, x, resolved, -, -, hall, -, rfl⟩ := exists_of_ofRules h
  obtain ⟨a, ha, hmade⟩ := hall r hr
  have hmem : a.2 ∈ (ofNames (definedNames rules) _ x).alternativesOf a.1 := mem_alternatives_ofFn.2 ha
  obtain ⟨i, hright⟩ := exists_right_eq hmem
  refine ⟨⟨a.1, i⟩, hmade.left, ?_⟩
  rw [hright]
  rcases resolveRight_ok hmade.right with hright | ⟨hright, -⟩
  · exact .inl hright
  · exact .inr hright

theorem closedUnder_generates : ClosedUnder rules g.Generates := by
  intro r hr w hw
  obtain ⟨p, hp⟩ := exists_production_says h hr
  have hderives : ∀ x w, g.Generates (g.name x) w → g.Derives [.nonterminal x] (w.map .terminal) := by
    rintro x w ⟨y, hy, hd⟩
    rwa [(wellFormed_of_ofRules h).name_inj y x hy] at hd
  have hright := derives_of_spells ((hp.spells.2 hw).mono hderives)
  exact ⟨p.left, hp.1, (Derives.production p).trans hright⟩

theorem spells_of_leftmost {L : String → List T → Prop} (hL : ClosedUnder rules L)
    {ps : List g.Production} {u : g.Form} {w : List T} (hu : g.Leftmost ps u w) :
    Spells (fun x => L (g.name x)) u w := by
  induction hu with
  | nil => rfl
  | terminal t _ ih => exact ⟨_, rfl, ih⟩
  | epsilon _ ih => exact ih
  | expand p _ ih =>
    obtain ⟨a, b, rfl, ha, hb⟩ := spells_append.1 ih
    obtain ⟨r, hr, hp⟩ := exists_rule_says h p
    have hleft := hL r hr a (hp.spells.1 ha)
    rw [← hp.1] at hleft
    exact ⟨a, b, rfl, hleft, hb⟩

theorem of_generates {L : String → List T → Prop} (hL : ClosedUnder rules L) {name : String}
    {w : List T} (hw : g.Generates name w) : L name w := by
  obtain ⟨x, rfl, hd⟩ := hw
  obtain ⟨ps, hps⟩ := hd.leftmost
  obtain ⟨a, b, rfl, ha, rfl⟩ := spells_of_leftmost h hL hps
  rwa [List.append_nil]

end

end Grammar

end

end Predictive
