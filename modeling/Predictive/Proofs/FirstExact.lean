import Predictive.Proofs.Convergence
import Predictive.Proofs.Derives

/-!
# FIRST sets are exact

The FIRST sets of a grammar say exactly what derivations say (`first_exact`): `t` is in FIRST of `u` if
and only if `u` derives a string that begins with `t`, and `u` is nullable if and only if it derives the
empty string. The rules may be left-recursive, unproductive or out of reach.

Every member has a reason (`FirstSets.Sound`), which each update of a pass keeps. Conversely sets that
no production adds to (`FirstSets.Closed`) lose nothing when a derivation is read backwards, from
`t :: v`, whose FIRST holds `t`, to `u`.
-/

namespace Predictive
variable {T : Type} [Terminal T] {g : Grammar T}

namespace FirstSets
variable {F F' : FirstSets g} {u v : g.Form} {t : T}

theorem nullable_ofForm_append :
    (F.ofForm (u ++ v)).nullable = ((F.ofForm u).nullable && (F.ofForm v).nullable) := by
  induction u with
  | nil => simp
  | cons s u ih => cases s <;> simp [ih, Bool.and_assoc]

theorem mem_ofForm_append : t ∈ (F.ofForm (u ++ v)).terminals ↔
    t ∈ (F.ofForm u).terminals ∨ (F.ofForm u).nullable = true ∧ t ∈ (F.ofForm v).terminals := by
  induction u with
  | nil => simp
  | cons s u ih => cases s <;> simp [ih, and_or_left, or_assoc, and_assoc]

theorem Subset.ofForm_append {u' v' : g.Form} (hu : (F.ofForm u).Subset (F.ofForm u'))
    (hv : (F.ofForm v).Subset (F.ofForm v')) :
    (F.ofForm (u ++ v)).Subset (F.ofForm (u' ++ v')) := by
  constructor
  · intro t ht
    rw [mem_ofForm_append] at ht ⊢
    exact ht.imp (hu.1 t) fun ht => ⟨hu.2 ht.1, hv.1 t ht.2⟩
  · simp only [nullable_ofForm_append, Bool.and_eq_true]
    exact fun h => ⟨hu.2 h.1, hv.2 h.2⟩

/-- No production adds anything. -/
def Closed (F : FirstSets g) : Prop := ∀ p : g.Production, (F.ofForm p.right).Subset (F.of p.left)

theorem subset_refl (a : FirstSet T) : a.Subset a := ⟨fun _ h => h, id⟩

theorem ofForm_singleton {x : g.Nonterminal} {a : FirstSet T} (h : a.Subset (F.of x)) :
    a.Subset (F.ofForm [.nonterminal x]) :=
  ⟨fun t ht => mem_ofForm_nonterminal.2 (.inl (h.1 t ht)), fun hn => by simp [h.2 hn]⟩

theorem Closed.yields (hF : F.Closed) (h : g.Yields u v) : (F.ofForm v).Subset (F.ofForm u) := by
  cases h with
  | replace p a b =>
    have hmid := Subset.ofForm_append (ofForm_singleton (hF p)) (subset_refl (F.ofForm b))
    simpa using Subset.ofForm_append (subset_refl (F.ofForm a)) hmid
  | drop a b => exact Subset.ofForm_append (subset_refl _) (subset_refl _)

theorem Closed.derives (hF : F.Closed) (h : g.Derives u v) : (F.ofForm v).Subset (F.ofForm u) := by
  induction h with
  | refl => exact subset_refl _
  | head step _ ih =>
    have hstep := hF.yields step
    exact ⟨fun t ht => hstep.1 t (ih.1 t ht), fun hn => hstep.2 (ih.2 hn)⟩

/-- Members and flags are there for a reason. -/
structure Sound (F : FirstSets g) : Prop where
  begins : ∀ x, ∀ t ∈ (F.of x).terminals, g.Begins t [.nonterminal x]
  derives : ∀ x, (F.of x).nullable = true → g.Derives [.nonterminal x] []

namespace Sound

theorem derives_form (hF : F.Sound) (h : (F.ofForm u).nullable = true) : g.Derives u [] := by
  induction u with
  | nil => exact .refl []
  | cons s u ih =>
    cases s with
    | terminal a => simp at h
    | epsilon => exact Grammar.derives_drop (ih h)
    | nonterminal x =>
      simp only [nullable_ofForm_nonterminal, Bool.and_eq_true] at h
      exact (hF.derives x h.1).append (ih h.2)

theorem begins_form (hF : F.Sound) (h : t ∈ (F.ofForm u).terminals) : g.Begins t u := by
  induction u with
  | nil => exact absurd h TerminalSet.not_mem_empty
  | cons s u ih =>
    cases s with
    | terminal a =>
      obtain rfl : t = a := by simpa using h
      exact .terminal u
    | epsilon => exact .skip (Grammar.derives_drop (.refl [])) (ih h)
    | nonterminal x =>
      rcases mem_ofForm_nonterminal.1 h with h | ⟨hx, h⟩
      · exact (hF.begins x t h).append_right u
      · exact .skip (hF.derives x hx) (ih h)

theorem absorb {p : g.Production} (hF : F.Sound) (h : F.absorb? p = some F') : F'.Sound := by
  obtain ⟨-, rfl⟩ := absorb?_eq_some_iff.1 h
  constructor
  · intro x t ht
    rw [of_set] at ht
    split at ht
    · next hx =>
      subst hx
      rcases TerminalSet.mem_union.1 ht with ht | ht
      · exact hF.begins p.left t ht
      · exact .enter p [] (hF.begins_form ht)
    · exact hF.begins x t ht
  · intro x hn
    rw [of_set] at hn
    split at hn
    · next hx =>
      subst hx
      simp only [FirstSet.union, Bool.or_eq_true] at hn
      rcases hn with hn | hn
      · exact hF.derives p.left hn
      · exact (Grammar.Derives.production p).trans (hF.derives_form hn)
    · exact hF.derives x hn

theorem empty : (FirstSets.empty g).Sound := by
  constructor
  · intro x t ht
    simp [FirstSets.empty, of, Vector.get, FirstSet.empty] at ht
  · intro x hn
    simp [FirstSets.empty, of, Vector.get, FirstSet.empty] at hn

end Sound

end FirstSets

namespace Grammar
variable {u v : g.Form} {t : T}

theorem sound_first (g : Grammar T) : g.first.value.Sound :=
  saturate_induction
    (fun _ hF => sweep_induction (fun _ _ _ _ hF h => hF.absorb h) hF) _ FirstSets.Sound.empty

theorem closed_first (g : Grammar T) : g.first.value.Closed :=
  fun p => FirstSets.absorb?_eq_none_iff.1 (absorb?_first p)

theorem mem_first_of_derives (h : g.Derives u (.terminal t :: v)) :
    t ∈ (g.first.value.ofForm u).terminals :=
  ((closed_first g).derives h).1 t (by simp)

theorem begins_iff_derives : g.Begins t u ↔ ∃ v, g.Derives u (.terminal t :: v) :=
  ⟨Begins.derives, fun ⟨_, h⟩ => (sound_first g).begins_form (mem_first_of_derives h)⟩

theorem mem_first_iff : t ∈ (g.first.value.ofForm u).terminals ↔ g.Begins t u :=
  ⟨(sound_first g).begins_form, fun h => h.derives.elim fun _ => mem_first_of_derives⟩

theorem nullable_first_iff : (g.first.value.ofForm u).nullable = true ↔ g.Derives u [] :=
  ⟨(sound_first g).derives_form, fun h => ((closed_first g).derives h).2 rfl⟩

theorem Begins.of_derives (hu : g.Derives u v) (hv : g.Begins t v) : g.Begins t u := by
  obtain ⟨w, hw⟩ := hv.derives
  exact begins_iff_derives.2 ⟨w, hu.trans hw⟩

end Grammar

/-- The passes for FIRST come to an end by themselves, with the sets that derivations define: the
terminals that begin what a string derives, and whether it derives the empty string. -/
theorem first_exact (g : Grammar T) :
    g.first.value.grow = (g.first.value, false) ∧
    ∀ u : g.Form,
      (∀ t, t ∈ (g.first.value.ofForm u).terminals ↔ ∃ v, g.Derives u (.terminal t :: v)) ∧
      ((g.first.value.ofForm u).nullable = true ↔ g.Derives u []) := by
  refine ⟨sweep_eq_self fun p _ => Grammar.absorb?_first p, fun u => ⟨fun t => ?_, ?_⟩⟩
  · rw [Grammar.mem_first_iff, Grammar.begins_iff_derives]
  · exact Grammar.nullable_first_iff

end Predictive
