import Mathlib.Algebra.BigOperators.Fin
import Mathlib.Algebra.Order.BigOperators.Group.Finset
import Mathlib.Data.List.Perm.Subperm
import Predictive.Table

/-!
# The solvers end at a fixed point

A pass that changes something makes the sets larger, and the sets hold only terminals that the grammar
mentions. So the passes that `passLimit` allows are enough: they stop by themselves, and one more would
change nothing (`first_stops`, `follow_stops`).

The argument is `saturate_stops`, for any passes with a measure that grows and is bounded; the
measure of a family of sets is the sum of their sizes.
-/

namespace Predictive

section
variable {α β : Type} {update : α → β → Option α} {bs : List β} {a : α} {P : α → Prop}

/-- What every update keeps, a pass keeps. -/
theorem sweep_induction (keep : ∀ a, ∀ b ∈ bs, ∀ a', P a → update a b = some a' → P a')
    (ha : P a) : P (sweep update bs a).1 := by
  induction bs generalizing a with
  | nil => exact ha
  | cons b bs ih =>
    have ih := fun {a} => ih (a := a) fun a b hb => keep a b (List.mem_cons_of_mem _ hb)
    unfold sweep
    split
    · exact ih ha
    · next next hb => exact ih (keep a b (List.mem_cons_self ..) next ha hb)

/-- A measure that grows with every update grows with every pass that reports a change. -/
theorem lt_sweep {μ : α → Nat}
    (keep : ∀ a, ∀ b ∈ bs, ∀ a', P a → update a b = some a' → P a' ∧ μ a < μ a')
    (ha : P a) (h : (sweep update bs a).2 = true) : μ a < μ (sweep update bs a).1 := by
  induction bs generalizing a with
  | nil => cases h
  | cons b bs ih =>
    have ih := fun {a} => ih (a := a) fun a b hb => keep a b (List.mem_cons_of_mem _ hb)
    unfold sweep at h ⊢
    split at h
    · exact ih ha h
    · next next hb =>
      obtain ⟨hnext, hlt⟩ := keep a b (List.mem_cons_self ..) next ha hb
      cases hs : (sweep update bs next).2 with
      | true => exact Nat.lt_trans hlt (ih hnext hs)
      | false => rw [fst_sweep_eq_self hs]; exact hlt

/-- Passes from `a` on stop by themselves, in `b`: this number of them and every greater one that is allowed
give the same. -/
def StopsAfter (pass : α → α × Bool) (passes : Nat) (a b : α) : Prop :=
  ∀ limit, passes ≤ limit → saturate pass limit a = ⟨b, passes⟩

namespace StopsAfter
variable {pass : α → α × Bool} {passes : Nat} {a b c : α}

theorem last (h : pass a = (b, false)) : StopsAfter pass 1 a b := by
  intro limit hlimit
  obtain ⟨limit, rfl⟩ := Nat.exists_eq_add_of_le' hlimit
  rw [saturate, h]

theorem again (h : pass a = (b, true)) (hb : StopsAfter pass passes b c) : StopsAfter pass (passes + 1) a c := by
  intro limit hlimit
  obtain ⟨limit, rfl⟩ := Nat.exists_eq_add_of_le' (Nat.le_of_add_left_le hlimit)
  rw [saturate, h]
  simp only [hb limit (Nat.le_of_succ_le_succ hlimit)]

theorem passes_unique {passes' : Nat} (h : StopsAfter pass passes a b) (h' : StopsAfter pass passes' a c) :
    passes = passes' :=
  congrArg Saturated.passes ((h _ (Nat.le_max_left passes passes')).symm.trans (h' _ (Nat.le_max_right ..)))

end StopsAfter

/-- Passes by updates that make a bounded measure grow stop with one that changes nothing, if there is room
for as many passes as the measure can grow. -/
theorem saturate_stops {bound limit : Nat} (P : α → Prop) (μ : α → Nat)
    (keep : ∀ a, ∀ b ∈ bs, ∀ a', P a → update a b = some a' → P a' ∧ μ a < μ a')
    (le : ∀ a, P a → μ a ≤ bound) (ha : P a) (hlimit : bound < limit + μ a) :
    StopsAfter (sweep update bs) (saturate (sweep update bs) limit a).passes a
      (saturate (sweep update bs) limit a).value ∧
    ∀ b ∈ bs, update (saturate (sweep update bs) limit a).value b = none := by
  have hstops : ∃ passes ≤ limit, ∃ c, StopsAfter (sweep update bs) passes a c ∧ ∀ b ∈ bs, update c b = none := by
    induction limit generalizing a with
    | zero => have := le a ha; omega
    | succ limit ih =>
      cases hs : (sweep update bs a).2 with
      | false =>
        have hpass : sweep update bs a = (a, false) := Prod.ext (fst_sweep_eq_self hs) hs
        exact ⟨1, Nat.le_add_left .., a, .last hpass, snd_sweep_eq_false_iff.1 hs⟩
      | true =>
        have hlt := lt_sweep keep ha hs
        have hnext : P (sweep update bs a).1 :=
          sweep_induction (fun a b hb a' h hu => (keep a b hb a' h hu).1) ha
        obtain ⟨passes, hle, c, hstops, hc⟩ := ih hnext (by omega)
        have hpass : sweep update bs a = ((sweep update bs a).1, true) := Prod.ext rfl hs
        exact ⟨passes + 1, Nat.succ_le_succ hle, c, .again hpass hstops, hc⟩
  obtain ⟨passes, hle, c, hstops, hc⟩ := hstops
  rw [hstops limit hle]
  exact ⟨hstops, hc⟩

end

theorem sum_lt_sum_set {α : Type} {n : Nat} (f : α → Nat) {v : Vector α n} {i : Fin n} {a : α}
    (h : f (v.get i) < f a) :
    ∑ x : Fin n, f (v.get x) < ∑ x : Fin n, f ((v.set i a i.isLt).get x) := by
  refine Finset.sum_lt_sum (fun x _ => ?_) ⟨i, Finset.mem_univ i, ?_⟩
  · rw [Table.get_set]
    split
    · next hx => subst hx; exact h.le
    · exact le_rfl
  · rw [Table.get_set, if_pos rfl]; exact h

theorem sum_le_mul {n bound : Nat} {f : Fin n → Nat} (h : ∀ x, f x ≤ bound) :
    ∑ x, f x ≤ n * bound := by
  simpa using Finset.sum_le_card_nsmul Finset.univ f bound fun x _ => h x

namespace TerminalSet
variable {T : Type} [Terminal T] {s u : TerminalSet T}

/-- The number of members. -/
def card (s : TerminalSet T) : Nat := s.toList.length

theorem nodup (s : TerminalSet T) : s.toList.Nodup := by
  refine s.increasing.imp fun {a b} hab => ?_
  rintro rfl
  simp [Std.ReflCmp.compare_self] at hab

theorem card_le_length {l : List T} (h : ∀ t ∈ s, t ∈ l) : s.card ≤ l.length :=
  (s.nodup.subperm fun t ht => h t ht).length_le

theorem card_lt_card (h : s.Subset u) (hne : ¬ u.Subset s) : s.card < u.card := by
  have hsub : s.toList.Subperm u.toList := s.nodup.subperm fun t ht => h t ht
  refine lt_of_le_of_ne hsub.length_le fun heq => hne fun t ht => ?_
  exact (hsub.perm_of_length_le heq.ge).mem_iff.2 ht

theorem subset_union_left : s.Subset (s.union u) := fun _ ht => mem_union.2 (.inl ht)

end TerminalSet

section
variable {T : Type} {g : Grammar T}

/-- The terminals of the alternatives. -/
def Grammar.mentioned (g : Grammar T) : List T :=
  (g.productions.flatMap (·.right)).filterMap fun
    | .terminal t => some t
    | _ => none

theorem Grammar.mem_mentioned {t : T} :
    t ∈ g.mentioned ↔ ∃ p : g.Production, .terminal t ∈ p.right := by
  simp only [mentioned, List.mem_filterMap, List.mem_flatMap]
  constructor
  · rintro ⟨s, ⟨p, -, hs⟩, ht⟩
    cases s <;> simp at ht
    subst ht; exact ⟨p, hs⟩
  · rintro ⟨p, hp⟩
    exact ⟨.terminal t, ⟨p, mem_productions p, hp⟩, rfl⟩

theorem Grammar.length_mentioned_le (g : Grammar T) : g.mentioned.length ≤ g.volume :=
  List.length_filterMap_le _ _

end

/-! ### FIRST -/

section
variable {T : Type} [Terminal T] {g : Grammar T}

namespace FirstSet
variable {a b : FirstSet T}

/-- What can come first by the one set can come first by the other. -/
def Subset (a b : FirstSet T) : Prop :=
  a.terminals.Subset b.terminals ∧ (a.nullable = true → b.nullable = true)

theorem union_eq_self_iff : a.union b = a ↔ b.Subset a := by
  obtain ⟨s, m⟩ := a
  obtain ⟨u, n⟩ := b
  simp only [union, Subset, mk.injEq, TerminalSet.union_eq_self_iff]
  cases m <;> cases n <;> simp

/-- The number of terminals, and one more if nothing can come. -/
def card (a : FirstSet T) : Nat := a.terminals.card + a.nullable.toNat

theorem card_lt_card_union (h : a.union b ≠ a) : a.card < (a.union b).card := by
  have hsub : a.terminals.Subset (a.union b).terminals := TerminalSet.subset_union_left
  have hle : a.terminals.card ≤ (a.union b).terminals.card := TerminalSet.card_le_length hsub
  have hnull : a.nullable.toNat ≤ (a.union b).nullable.toNat := by
    simp only [union]; cases a.nullable <;> cases b.nullable <;> decide
  by_cases ht : b.terminals.Subset a.terminals
  · have hn : a.nullable.toNat < (a.union b).nullable.toNat := by
      have hns : ¬ b.Subset a := fun hs => h (union_eq_self_iff.2 hs)
      simp only [Subset, ht, true_and, Classical.not_imp] at hns
      simp [union, hns]
    unfold card; omega
  · have := TerminalSet.card_lt_card hsub fun hs => ht fun t htb =>
      hs t (TerminalSet.mem_union.2 (.inr htb))
    unfold card; omega

end FirstSet

namespace FirstSets
variable {F F' : FirstSets g} {p : g.Production}

theorem absorb?_eq_none_iff : F.absorb? p = none ↔ (F.ofForm p.right).Subset (F.of p.left) := by
  simp [absorb?, FirstSet.union_eq_self_iff]

theorem absorb?_eq_some_iff : F.absorb? p = some F' ↔
    (F.of p.left).union (F.ofForm p.right) ≠ F.of p.left ∧
      F' = F.set p.left ((F.of p.left).union (F.ofForm p.right)) p.left.isLt := by
  simp [absorb?, eq_comm]

theorem of_set {x y : g.Nonterminal} {a : FirstSet T} :
    of (F.set x a) y = if x = y then a else F.of y := Table.get_set

@[simp] theorem ofForm_nil : F.ofForm [] = ⟨.empty, true⟩ := rfl

@[simp] theorem ofForm_terminal {t : T} {u : g.Form} :
    F.ofForm (.terminal t :: u) = ⟨.singleton t, false⟩ := rfl

@[simp] theorem ofForm_epsilon {u : g.Form} : F.ofForm (.epsilon :: u) = F.ofForm u := rfl

@[simp] theorem mem_ofForm_nonterminal {t : T} {x : g.Nonterminal} {u : g.Form} :
    t ∈ (F.ofForm (.nonterminal x :: u)).terminals ↔
      t ∈ (F.of x).terminals ∨ (F.of x).nullable = true ∧ t ∈ (F.ofForm u).terminals := by
  simp only [ofForm]
  split <;> simp_all

@[simp] theorem nullable_ofForm_nonterminal {x : g.Nonterminal} {u : g.Form} :
    (F.ofForm (.nonterminal x :: u)).nullable = ((F.of x).nullable && (F.ofForm u).nullable) := by
  simp only [ofForm]
  split <;> simp_all

/-- The sets hold only terminals of the list `l`. -/
def Within (F : FirstSets g) (l : List T) : Prop := ∀ x, ∀ t ∈ (F.of x).terminals, t ∈ l

theorem Within.ofForm {l : List T} (hF : F.Within l) {u : g.Form}
    (hu : ∀ t, .terminal t ∈ u → t ∈ l) : ∀ t ∈ (F.ofForm u).terminals, t ∈ l := by
  induction u with
  | nil => intro t ht; exact absurd ht TerminalSet.not_mem_empty
  | cons s u ih =>
    have ih := ih fun t ht => hu t (List.mem_cons_of_mem s ht)
    intro t ht
    cases s with
    | terminal a =>
      obtain rfl : t = a := by simpa using ht
      exact hu t (List.mem_cons_self ..)
    | epsilon => exact ih t ht
    | nonterminal x => exact (mem_ofForm_nonterminal.1 ht).elim (hF x t) fun ht => ih t ht.2

theorem Within.absorb (hF : F.Within g.mentioned) (h : F.absorb? p = some F') :
    F'.Within g.mentioned := by
  obtain ⟨-, rfl⟩ := absorb?_eq_some_iff.1 h
  intro x t ht
  rw [of_set] at ht
  split at ht
  · refine (TerminalSet.mem_union.1 ht).elim (hF p.left t) (hF.ofForm ?_ t)
    exact fun t ht => Grammar.mem_mentioned.2 ⟨p, ht⟩
  · exact hF x t ht

theorem within_empty {l : List T} : (empty g).Within l := by
  intro x t ht
  simp [empty, of, Vector.get, FirstSet.empty] at ht

def total (F : FirstSets g) : Nat := ∑ x, (F.of x).card

theorem total_lt_of_absorb? (h : F.absorb? p = some F') : F.total < F'.total := by
  obtain ⟨hne, rfl⟩ := absorb?_eq_some_iff.1 h
  exact sum_lt_sum_set FirstSet.card (FirstSet.card_lt_card_union hne)

theorem Within.total_le (hF : F.Within g.mentioned) : F.total ≤ g.size * (g.volume + 1) := by
  refine sum_le_mul fun x => ?_
  have hlen := TerminalSet.card_le_length (hF x)
  have hvol := g.length_mentioned_le
  have hnull := (F.of x).nullable.toNat_le
  unfold FirstSet.card; omega

end FirstSets

/-- The passes for the FIRST sets of the grammar stop by themselves, and no production adds anything more. -/
theorem Grammar.first_stops (g : Grammar T) :
    StopsAfter FirstSets.grow g.first.passes (FirstSets.empty g) g.first.value ∧
      ∀ p ∈ g.productions, g.first.value.absorb? p = none := by
  refine saturate_stops (fun F => F.Within g.mentioned) FirstSets.total
    (fun F p _ F' hF h => ⟨hF.absorb h, FirstSets.total_lt_of_absorb? h⟩)
    (fun F hF => hF.total_le) FirstSets.within_empty ?_
  unfold FirstSets.passLimit; omega

theorem Grammar.absorb?_first (p : g.Production) : g.first.value.absorb? p = none :=
  g.first_stops.2 p (mem_productions p)

/-! ### FOLLOW -/

namespace FollowSets
variable {F : FirstSets g} {W W' : FollowSets g} {o : Occurrence g}

theorem absorb?_eq_none_iff : absorb? F W o = none ↔ (W.after F o).Subset (W.of o.symbol) := by
  simp [absorb?, TerminalSet.union_eq_self_iff]

theorem absorb?_eq_some_iff : absorb? F W o = some W' ↔
    (W.of o.symbol).union (W.after F o) ≠ W.of o.symbol ∧
      W' = W.set o.symbol ((W.of o.symbol).union (W.after F o)) o.symbol.isLt := by
  simp [absorb?, eq_comm]

theorem of_set {x y : g.Nonterminal} {s : TerminalSet T} :
    of (W.set x s) y = if x = y then s else W.of y := Table.get_set

omit [Terminal T] in
theorem mem_occurrencesIn {x : g.Nonterminal} {u : g.Form} :
    o ∈ occurrencesIn x u ↔ o.left = x ∧ ∃ a, u = a ++ .nonterminal o.symbol :: o.rest := by
  induction u with
  | nil => simp [occurrencesIn]
  | cons s u ih =>
    have hcons : (∃ a, s :: u = a ++ .nonterminal o.symbol :: o.rest) ↔
        (s = .nonterminal o.symbol ∧ u = o.rest) ∨ ∃ a, u = a ++ .nonterminal o.symbol :: o.rest := by
      constructor
      · rintro ⟨a, ha⟩
        cases a with
        | nil => exact .inl (List.cons.inj ha)
        | cons c a => exact .inr ⟨a, (List.cons.inj ha).2⟩
      · rintro (⟨rfl, rfl⟩ | ⟨a, rfl⟩)
        · exact ⟨[], rfl⟩
        · exact ⟨s :: a, rfl⟩
    rw [hcons]
    cases s with
    | nonterminal y =>
      simp only [occurrencesIn, List.mem_cons, ih, Symbol.nonterminal.injEq]
      constructor
      · rintro (rfl | ⟨hx, ha⟩)
        · exact ⟨rfl, .inl ⟨rfl, rfl⟩⟩
        · exact ⟨hx, .inr ha⟩
      · rintro ⟨rfl, ⟨rfl, rfl⟩ | ha⟩
        · exact .inl rfl
        · exact .inr ⟨rfl, ha⟩
    | terminal t => simp [occurrencesIn, ih]
    | epsilon => simp [occurrencesIn, ih]

omit [Terminal T] in
theorem mem_occurrences : o ∈ occurrences g ↔
    ∃ p : g.Production, p.left = o.left ∧ ∃ a, p.right = a ++ .nonterminal o.symbol :: o.rest := by
  simp only [occurrences, List.mem_flatMap, mem_occurrencesIn]
  constructor
  · rintro ⟨p, -, hp, ha⟩; exact ⟨p, hp.symm, ha⟩
  · rintro ⟨p, hp, ha⟩; exact ⟨p, Grammar.mem_productions p, hp.symm, ha⟩

theorem mem_after {t : T} : t ∈ W.after F o ↔
    t ∈ (F.ofForm o.rest).terminals ∨ (F.ofForm o.rest).nullable = true ∧ t ∈ W.of o.left := by
  unfold after
  dsimp only
  split <;> simp_all

/-- What the sets can hold: the end marker, the terminals of the grammar and those of `F`. -/
def candidates (F : FirstSets g) : List T :=
  Terminal.endMarker :: (g.mentioned ++ F.toList.flatMap (·.terminals.toList))

theorem length_candidates_le : (candidates F).length ≤
    g.volume + (F.toList.flatMap (·.terminals.toList)).length + 1 := by
  have := g.length_mentioned_le
  simp only [candidates, List.length_cons, List.length_append]
  omega

theorem within_candidates (F : FirstSets g) : F.Within (candidates F) := by
  intro x t ht
  have hx : F.of x ∈ F.toList := by
    simp only [FirstSets.of, Vector.get, Vector.mem_toList_iff]
    exact Vector.getElem_mem x.isLt
  exact List.mem_cons_of_mem _ (List.mem_append_right _ (List.mem_flatMap.2 ⟨_, hx, ht⟩))

/-- The sets hold only candidates. -/
def Within (F : FirstSets g) (W : FollowSets g) : Prop := ∀ x, ∀ t ∈ W.of x, t ∈ candidates F

theorem Within.absorb (hW : Within F W) (ho : o ∈ occurrences g) (h : absorb? F W o = some W') :
    Within F W' := by
  obtain ⟨-, rfl⟩ := absorb?_eq_some_iff.1 h
  intro x t ht
  rw [of_set] at ht
  split at ht
  · refine (TerminalSet.mem_union.1 ht).elim (hW o.symbol t) fun ht => ?_
    rcases mem_after.1 ht with ht | ⟨-, ht⟩
    · refine (within_candidates F).ofForm (fun a ha => ?_) t ht
      obtain ⟨p, -, b, hp⟩ := mem_occurrences.1 ho
      refine List.mem_cons_of_mem _ (List.mem_append_left _ (Grammar.mem_mentioned.2 ⟨p, ?_⟩))
      simp [hp, ha]
    · exact hW o.left t ht
  · exact hW x t ht

theorem of_initial {x : g.Nonterminal} :
    (initial g).of x = if g.start = x then .singleton Terminal.endMarker else .empty := by
  rw [initial, of_set]
  simp [of, Vector.get]

theorem within_initial : Within F (initial g) := by
  intro x t ht
  rw [of_initial] at ht
  split at ht
  · simp only [TerminalSet.mem_singleton] at ht
    subst ht; exact List.mem_cons_self ..
  · exact absurd ht TerminalSet.not_mem_empty

def total (W : FollowSets g) : Nat := ∑ x, (W.of x).card

theorem total_lt_of_absorb? (h : absorb? F W o = some W') : W.total < W'.total := by
  obtain ⟨hne, rfl⟩ := absorb?_eq_some_iff.1 h
  refine sum_lt_sum_set TerminalSet.card (TerminalSet.card_lt_card TerminalSet.subset_union_left ?_)
  intro hsub
  exact hne (TerminalSet.union_eq_self_iff.2 fun t ht => hsub t (TerminalSet.mem_union.2 (.inr ht)))

theorem Within.total_le (hW : Within F W) :
    W.total ≤ g.size * (g.volume + (F.toList.flatMap (·.terminals.toList)).length + 1) :=
  sum_le_mul fun x => (TerminalSet.card_le_length (hW x)).trans length_candidates_le

end FollowSets

/-- The passes for the FOLLOW sets stop by themselves, whatever FIRST sets they go by, and no occurrence adds
anything more. -/
theorem Grammar.follow_stops (F : FirstSets g) :
    StopsAfter (FollowSets.grow F) (Grammar.follow F).passes (FollowSets.initial g) (Grammar.follow F).value ∧
      ∀ o ∈ FollowSets.occurrences g, FollowSets.absorb? F (Grammar.follow F).value o = none := by
  refine saturate_stops (FollowSets.Within F) FollowSets.total
    (fun W o ho W' hW h => ⟨hW.absorb ho h, FollowSets.total_lt_of_absorb? h⟩)
    (fun W hW => hW.total_le) FollowSets.within_initial ?_
  unfold FollowSets.passLimit; omega

theorem Grammar.absorb?_follow (F : FirstSets g) {o : FollowSets.Occurrence g}
    (ho : o ∈ FollowSets.occurrences g) : FollowSets.absorb? F (Grammar.follow F).value o = none :=
  (Grammar.follow_stops F).2 o ho

end

end Predictive
