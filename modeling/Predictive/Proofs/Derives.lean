import Predictive.Grammar.Derivation

/-!
# Taking derivations apart

A concatenation derives piece by piece (`Derives.append_inv`), so a derivation can be read from its
left end: a terminal in front stays there, an epsilon goes, and a nonterminal is replaced or stays.

`Begins g t u` says why a string derived from `u` can begin with `t`: `t` stands in front of `u`, or an
alternative of the nonterminal in front begins with it, or what stands in front derives the empty
string. That it says nothing else than `∃ v, g.Derives u (.terminal t :: v)` is `begins_iff_derives` in
`FirstExact`, where the FIRST sets close the circle.
-/

namespace Predictive.Grammar
variable {T : Type} {g : Grammar T}

section
variable {u v w : g.Form}

theorem append_eq_append_cons {α : Type} {u v a b : List α} {s : α} (h : u ++ v = a ++ s :: b) :
    (∃ c, u = a ++ s :: c ∧ b = c ++ v) ∨ ∃ c, v = c ++ s :: b ∧ a = u ++ c := by
  rcases List.append_eq_append_iff.1 h with ⟨c, rfl, hv⟩ | ⟨c, rfl, hc⟩
  · exact .inr ⟨c, hv, rfl⟩
  · rcases List.cons_eq_append_iff.1 hc with ⟨rfl, hv⟩ | ⟨c, rfl, hb⟩
    · exact .inr ⟨[], hv, by simp⟩
    · exact .inl ⟨c, rfl, hb⟩

theorem Yields.append_inv (h : g.Yields (u ++ v) w) :
    (∃ u', g.Yields u u' ∧ w = u' ++ v) ∨ ∃ v', g.Yields v v' ∧ w = u ++ v' := by
  generalize hs : u ++ v = s at h
  cases h with
  | replace p a b =>
    rcases append_eq_append_cons hs with ⟨c, rfl, rfl⟩ | ⟨c, rfl, rfl⟩
    · exact .inl ⟨_, .replace p a c, by simp⟩
    · exact .inr ⟨_, .replace p c b, by simp⟩
  | drop a b =>
    rcases append_eq_append_cons hs with ⟨c, rfl, rfl⟩ | ⟨c, rfl, rfl⟩
    · exact .inl ⟨_, .drop a c, by simp⟩
    · exact .inr ⟨_, .drop c b, by simp⟩

theorem Yields.singleton_inv {s : Symbol T g.Nonterminal} (h : g.Yields [s] w) :
    (∃ p : g.Production, s = .nonterminal p.left ∧ w = p.right) ∨ s = .epsilon ∧ w = [] := by
  generalize hs : [s] = u at h
  cases h with
  | replace p c d =>
    have hcd : c = [] ∧ d = [] ∧ s = .nonterminal p.left := by cases c <;> simp_all
    obtain ⟨rfl, rfl, rfl⟩ := hcd
    exact .inl ⟨p, rfl, by simp⟩
  | drop c d =>
    have hcd : c = [] ∧ d = [] ∧ s = .epsilon := by cases c <;> simp_all
    obtain ⟨rfl, rfl, rfl⟩ := hcd
    exact .inr ⟨rfl, rfl⟩

theorem not_yields_nil : ¬ g.Yields [] w := by
  intro h
  generalize hs : ([] : g.Form) = s at h
  cases h <;> simp at hs

namespace Derives

theorem append_inv (h : g.Derives (u ++ v) w) :
    ∃ u' v', w = u' ++ v' ∧ g.Derives u u' ∧ g.Derives v v' := by
  generalize hs : u ++ v = s at h
  induction h generalizing u v with
  | refl => exact ⟨u, v, hs.symm, .refl u, .refl v⟩
  | head step _ ih =>
    subst hs
    rcases step.append_inv with ⟨u₁, hu, rfl⟩ | ⟨v₁, hv, rfl⟩
    · obtain ⟨u', v', rfl, hu', hv'⟩ := ih rfl
      exact ⟨u', v', rfl, .head hu hu', hv'⟩
    · obtain ⟨u', v', rfl, hu', hv'⟩ := ih rfl
      exact ⟨u', v', rfl, hu', .head hv hv'⟩

theorem nil_inv (h : g.Derives [] w) : w = [] := by
  cases h with
  | refl => rfl
  | head step => exact absurd step not_yields_nil

theorem terminal_inv {t : T} (h : g.Derives (.terminal t :: u) w) :
    ∃ w', w = .terminal t :: w' ∧ g.Derives u w' := by
  obtain ⟨a, b, rfl, ha, hb⟩ := append_inv (u := [.terminal t]) h
  suffices a = [.terminal t] by subst this; exact ⟨b, rfl, hb⟩
  cases ha with
  | refl => rfl
  | head step => rcases step.singleton_inv with ⟨p, hp, -⟩ | ⟨hp, -⟩ <;> cases hp

/-- What ends in a terminal derives words that end in it. -/
theorem word_append_inv {t : T} {w : List T} (h : g.Derives (u ++ [.terminal t]) (w.map .terminal)) :
    ∃ w', w = w' ++ [t] ∧ g.Derives u (w'.map .terminal) := by
  obtain ⟨a, b, hab, ha, hb⟩ := h.append_inv
  obtain ⟨b', rfl, hb'⟩ := hb.terminal_inv
  obtain rfl := hb'.nil_inv
  obtain ⟨w', w'', rfl, rfl, hw⟩ := List.map_eq_append_iff.1 hab
  obtain ⟨t', rfl, ht⟩ := List.map_eq_singleton_iff.1 hw
  cases ht
  exact ⟨w', rfl, ha⟩

theorem epsilon_inv (h : g.Derives [.epsilon] w) : w = [.epsilon] ∨ w = [] := by
  cases h with
  | refl => exact .inl rfl
  | head step h =>
    rcases step.singleton_inv with ⟨p, hp, -⟩ | ⟨-, rfl⟩
    · cases hp
    · exact .inr h.nil_inv

/-- An epsilon in front of what begins with a terminal has been dropped. -/
theorem of_epsilon {t : T} (h : g.Derives (.epsilon :: u) (.terminal t :: v)) :
    g.Derives u (.terminal t :: v) := by
  obtain ⟨a, b, hab, ha, hb⟩ := append_inv (u := [.epsilon]) h
  rcases ha.epsilon_inv with rfl | rfl
  · simp at hab
  · rw [hab]; exact hb

/-- A nonterminal that does not stay is replaced by one of its alternatives first. -/
theorem nonterminal_inv {x : g.Nonterminal} (h : g.Derives [.nonterminal x] w) :
    w = [.nonterminal x] ∨ ∃ p : g.Production, p.left = x ∧ g.Derives p.right w := by
  cases h with
  | refl => exact .inl rfl
  | head step h =>
    rcases step.singleton_inv with ⟨p, hp, rfl⟩ | ⟨hp, -⟩
    · cases hp
      exact .inr ⟨p, rfl, h⟩
    · cases hp

theorem not_mem {t : T} (h : g.Derives u v) (hp : ∀ p : g.Production, .terminal t ∉ p.right)
    (hu : .terminal t ∉ u) : .terminal t ∉ v := by
  induction h with
  | refl => exact hu
  | head step _ ih =>
    refine ih fun hv => ?_
    cases step with
    | replace p a b =>
      simp only [List.mem_append, List.mem_cons, not_or] at hu hv
      rcases hv with (hv | hv) | hv
      · exact hu.1 hv
      · exact hp p hv
      · exact hu.2.2 hv
    | drop a b =>
      simp only [List.mem_append, List.mem_cons, not_or] at hu hv
      rcases hv with hv | hv
      · exact hu.1 hv
      · exact hu.2.2 hv

end Derives

theorem derives_append_nil : g.Derives (u ++ v) [] ↔ g.Derives u [] ∧ g.Derives v [] := by
  constructor
  · intro h
    obtain ⟨a, b, hab, hu, hv⟩ := h.append_inv
    obtain ⟨rfl, rfl⟩ := List.append_eq_nil_iff.1 hab.symm
    exact ⟨hu, hv⟩
  · rintro ⟨hu, hv⟩
    exact hu.append hv

theorem derives_replace (p : g.Production) (h : g.Derives (p.right ++ u) v) :
    g.Derives (.nonterminal p.left :: u) v :=
  .head (by simpa using Yields.replace p [] u) h

theorem derives_drop (h : g.Derives u v) : g.Derives (.epsilon :: u) v := .head (.drop [] u) h

end

/-! ### Leftmost derivations -/

namespace Leftmost
variable {ps qs : List g.Production} {u v : g.Form} {a b w : List T}

theorem append (h : g.Leftmost ps u a) (h' : g.Leftmost qs v b) :
    g.Leftmost (ps ++ qs) (u ++ v) (a ++ b) := by
  induction h with
  | nil => exact h'
  | terminal t _ ih => exact .terminal t ih
  | epsilon _ ih => exact .epsilon ih
  | expand p _ ih => exact .expand p (by simpa using ih)

theorem append_inv (h : g.Leftmost ps (u ++ v) w) :
    ∃ ps₁ ps₂ w₁ w₂, w = w₁ ++ w₂ ∧ g.Leftmost ps₁ u w₁ ∧ g.Leftmost ps₂ v w₂ := by
  generalize hs : u ++ v = s at h
  induction h generalizing u with
  | nil =>
    obtain ⟨rfl, rfl⟩ := List.append_eq_nil_iff.1 hs
    exact ⟨[], [], [], [], rfl, .nil, .nil⟩
  | @terminal ps s w t h ih =>
    rcases List.append_eq_cons_iff.1 hs with ⟨rfl, rfl⟩ | ⟨u, rfl, rfl⟩
    · exact ⟨[], ps, [], t :: w, rfl, .nil, .terminal t h⟩
    · obtain ⟨ps₁, ps₂, w₁, w₂, rfl, hu, hv⟩ := ih rfl
      exact ⟨ps₁, ps₂, t :: w₁, w₂, rfl, .terminal t hu, hv⟩
  | @epsilon ps s w h ih =>
    rcases List.append_eq_cons_iff.1 hs with ⟨rfl, rfl⟩ | ⟨u, rfl, rfl⟩
    · exact ⟨[], ps, [], w, rfl, .nil, .epsilon h⟩
    · obtain ⟨ps₁, ps₂, w₁, w₂, rfl, hu, hv⟩ := ih rfl
      exact ⟨ps₁, ps₂, w₁, w₂, rfl, .epsilon hu, hv⟩
  | @expand ps s w p h ih =>
    rcases List.append_eq_cons_iff.1 hs with ⟨rfl, rfl⟩ | ⟨u, rfl, rfl⟩
    · exact ⟨[], p :: ps, [], w, rfl, .nil, .expand p h⟩
    · obtain ⟨ps₁, ps₂, w₁, w₂, rfl, hu, hv⟩ := ih (u := p.right ++ u) (by simp)
      exact ⟨p :: ps₁, ps₂, w₁, w₂, rfl, .expand p hu, hv⟩

theorem map_terminal (w : List T) : g.Leftmost [] (w.map .terminal) w := by
  induction w with
  | nil => exact .nil
  | cons t w ih => exact .terminal t ih

end Leftmost

theorem Yields.leftmost {u v : g.Form} {ps : List g.Production} {w : List T} (h : g.Yields u v)
    (hv : g.Leftmost ps v w) : ∃ qs, g.Leftmost qs u w := by
  cases h with
  | replace p a b =>
    obtain ⟨ps₁, ps₂, w₁, w₂, rfl, ha, hb⟩ := Leftmost.append_inv (u := a) (by simpa using hv)
    exact ⟨_, ha.append (.expand p hb)⟩
  | drop a b =>
    obtain ⟨ps₁, ps₂, w₁, w₂, rfl, ha, hb⟩ := Leftmost.append_inv hv
    exact ⟨_, ha.append (.epsilon hb)⟩

/-- A string of terminals that can be derived has a leftmost derivation. -/
theorem Derives.leftmost {u : g.Form} {w : List T} (h : g.Derives u (w.map .terminal)) :
    ∃ ps, g.Leftmost ps u w := by
  generalize hs : w.map Symbol.terminal = s at h
  induction h with
  | refl => subst hs; exact ⟨[], .map_terminal w⟩
  | head step _ ih =>
    obtain ⟨ps, hps⟩ := ih hs
    exact step.leftmost hps

/-! ### The first terminal -/

/-- Why a string derived from another can begin with `t`. -/
inductive Begins (g : Grammar T) (t : T) : g.Form → Prop where
  | terminal (u : g.Form) : Begins g t (.terminal t :: u)
  | enter (p : g.Production) (u : g.Form) : Begins g t p.right →
    Begins g t (.nonterminal p.left :: u)
  | skip {s : Symbol T g.Nonterminal} {u : g.Form} : g.Derives [s] [] → Begins g t u →
    Begins g t (s :: u)

namespace Begins
variable {t : T} {u v : g.Form}

theorem append_right (h : g.Begins t u) (v : g.Form) : g.Begins t (u ++ v) := by
  induction h with
  | terminal u => exact .terminal _
  | enter p u h => exact .enter p _ h
  | skip hs _ ih => exact .skip hs ih

theorem append_inv (h : g.Begins t (u ++ v)) : g.Begins t u ∨ g.Derives u [] ∧ g.Begins t v := by
  generalize hs : u ++ v = s at h
  induction h generalizing u with
  | terminal s =>
    rcases List.append_eq_cons_iff.1 hs with ⟨rfl, rfl⟩ | ⟨u, rfl, rfl⟩
    · exact .inr ⟨.refl [], .terminal s⟩
    · exact .inl (.terminal u)
  | enter p s h =>
    rcases List.append_eq_cons_iff.1 hs with ⟨rfl, rfl⟩ | ⟨u, rfl, rfl⟩
    · exact .inr ⟨.refl [], .enter p s h⟩
    · exact .inl (.enter p u h)
  | skip hx h ih =>
    rcases List.append_eq_cons_iff.1 hs with ⟨rfl, rfl⟩ | ⟨u, rfl, rfl⟩
    · exact .inr ⟨.refl [], .skip hx h⟩
    · rcases ih rfl with hu | ⟨hu, hv⟩
      · exact .inl (.skip hx hu)
      · exact .inr ⟨hx.append hu, hv⟩

theorem derives (h : g.Begins t u) : ∃ v, g.Derives u (.terminal t :: v) := by
  induction h with
  | terminal u => exact ⟨u, .refl _⟩
  | enter p u _ ih =>
    obtain ⟨v, hv⟩ := ih
    exact ⟨v ++ u, derives_replace p (hv.append (.refl u))⟩
  | skip hs _ ih =>
    obtain ⟨v, hv⟩ := ih
    exact ⟨v, hs.append hv⟩

end Begins

end Predictive.Grammar
