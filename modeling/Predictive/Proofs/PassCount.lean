import Mathlib.Data.Set.Card
import Predictive.Proofs.Confluence

/-!
# How many passes the solvers need

For `n` nonterminals `2 * n + 1` passes are enough for FIRST and `n + 1` for FOLLOW, the last and
unchanging one included, however many terminals there are (`passes_le`).

What the updates hand on is looked at by itself: one terminal, or the possibility to be empty. A
nonterminal has it or has not, and updates give it to more of them (`Spreads`). If a pass gives it to none,
then each of its updates has seen the same nonterminals with it, and so will those of all later passes. The
passes that give it to some nonterminal therefore come first, and there are at most `n` of them
(`Spreads.settled_passed`).

FOLLOW hands on each terminal in this way. FIRST does so only when it is settled which nonterminals can be
empty, since a terminal comes through to the front of a right-hand side behind those. This takes `n` passes,
and the terminals take `n` more.
-/

namespace Predictive

section
variable {α β : Type}

/-! ### Passes that stop by themselves -/

section
variable {pass : α → α × Bool} {a b : α} {m n : Nat}

/-- What `k` passes make of `a`. -/
def passed (pass : α → α × Bool) : (k : Nat) → α → α
  | 0, a => a
  | k + 1, a => passed pass k (pass a).1

theorem passed_add (pass : α → α × Bool) (m n : Nat) (a : α) :
    passed pass (m + n) a = passed pass n (passed pass m a) := by
  induction m generalizing a with
  | zero => rw [Nat.zero_add]; rfl
  | succ m ih => rw [Nat.succ_add]; exact ih _

theorem passed_induction {P : α → Prop} (step : ∀ a, P a → P (pass a).1) (k : Nat) (h : P a) :
    P (passed pass k a) := by
  induction k generalizing a with
  | zero => exact h
  | succ k ih => exact ih (step a h)

/-- One of the first `n` passes reports no change. -/
def StopsWithin (pass : α → α × Bool) (n : Nat) (a : α) : Prop := ∃ passes ≤ n, ∃ b, StopsAfter pass passes a b

namespace StopsWithin

theorem last (h : (pass a).2 = false) : StopsWithin pass (n + 1) a :=
  ⟨1, Nat.le_add_left .., (pass a).1, .last (Prod.ext rfl h)⟩

theorem again (h : (pass a).2 = true) (hnext : StopsWithin pass n (pass a).1) :
    StopsWithin pass (n + 1) a := by
  obtain ⟨passes, hle, b, hstops⟩ := hnext
  exact ⟨passes + 1, Nat.succ_le_succ hle, b, .again (Prod.ext rfl h) hstops⟩

theorem of_passed (h : (pass (passed pass n a)).2 = false) : StopsWithin pass (n + 1) a := by
  induction n generalizing a with
  | zero => exact last h
  | succ n ih =>
    cases hpass : (pass a).2 with
    | false => exact last hpass
    | true => exact again hpass (ih h)

theorem le (h : StopsWithin pass n a) (hstops : StopsAfter pass m a b) : m ≤ n := by
  obtain ⟨passes, hle, c, hstops'⟩ := h
  exact hstops.passes_unique hstops' ▸ hle

end StopsWithin

end

/-! ### What updates hand on -/

section
variable {update : α → β → Option α} {bs : List β} {n : Nat} {P : α → Prop} {has : α → Fin n → Prop}
  {target : β → Fin n} {asks : α → β → Prop} {a : α} {b : β}

/-- An update gives something to its target exactly if those that have it ask for that, and the more have
it, the more is asked for. -/
structure Spreads (update : α → β → Option α) (bs : List β) (P : α → Prop) (has : α → Fin n → Prop)
    (target : β → Fin n) (asks : α → β → Prop) : Prop where
  keeps : ∀ a, ∀ b ∈ bs, ∀ a', P a → update a b = some a' → P a'
  idle : ∀ a, ∀ b ∈ bs, P a → update a b = none → asks a b → has a (target b)
  has_iff : ∀ a, ∀ b ∈ bs, ∀ a', P a → update a b = some a' →
    ∀ x, has a' x ↔ has a x ∨ x = target b ∧ asks a b
  mono : ∀ a a', P a → P a' → (∀ x, has a x → has a' x) → ∀ b ∈ bs, asks a b → asks a' b

/-- All that is asked for is there. -/
def Settled (bs : List β) (has : α → Fin n → Prop) (target : β → Fin n) (asks : α → β → Prop) (a : α) :
    Prop :=
  ∀ b ∈ bs, asks a b → has a (target b)

namespace Spreads

theorem tail (h : Spreads update (b :: bs) P has target asks) : Spreads update bs P has target asks where
  keeps a c hc := h.keeps a c (List.mem_cons_of_mem b hc)
  idle a c hc := h.idle a c (List.mem_cons_of_mem b hc)
  has_iff a c hc := h.has_iff a c (List.mem_cons_of_mem b hc)
  mono a a' ha ha' hle c hc := h.mono a a' ha ha' hle c (List.mem_cons_of_mem b hc)

theorem keeps_sweep (h : Spreads update bs P has target asks) (ha : P a) : P (sweep update bs a).1 :=
  sweep_induction h.keeps ha

theorem has_sweep (h : Spreads update bs P has target asks) (ha : P a) {x : Fin n} (hx : has a x) :
    has (sweep update bs a).1 x :=
  (sweep_induction (P := fun a => P a ∧ has a x) (fun a b hb a' ⟨ha, hx⟩ hu =>
    ⟨h.keeps a b hb a' ha hu, (h.has_iff a b hb a' ha hu x).2 (.inl hx)⟩) ⟨ha, hx⟩).2

/-- What is asked for when a pass begins is there when it ends. -/
theorem has_target (h : Spreads update bs P has target asks) (ha : P a) (hb : b ∈ bs) (hask : asks a b) :
    has (sweep update bs a).1 (target b) := by
  induction bs generalizing a with
  | nil => cases hb
  | cons c bs ih =>
    unfold sweep
    split
    · next hnone =>
      rcases List.mem_cons.1 hb with rfl | hb
      · exact h.tail.has_sweep ha (h.idle a b (List.mem_cons_self ..) ha hnone hask)
      · exact ih h.tail ha hb hask
    · next next hsome =>
      have hc : c ∈ c :: bs := List.mem_cons_self ..
      have hnext := h.keeps a c hc next ha hsome
      have hiff := h.has_iff a c hc next ha hsome
      rcases List.mem_cons.1 hb with rfl | hb'
      · exact h.tail.has_sweep hnext ((hiff _).2 (.inr ⟨rfl, hask⟩))
      · exact ih h.tail hnext hb' (h.mono a next ha hnext (fun x hx => (hiff x).2 (.inl hx)) b hb hask)

/-- A pass that gives it to none leaves nothing to ask for. -/
theorem settled_of_idle (h : Spreads update bs P has target asks) (ha : P a)
    (hidle : ∀ x, has (sweep update bs a).1 x → has a x) : Settled bs has target asks a :=
  fun _ hb hask => hidle _ (h.has_target ha hb hask)

theorem settled_sweep (h : Spreads update bs P has target asks) (ha : P a)
    (hs : Settled bs has target asks a) : Settled bs has target asks (sweep update bs a).1 := by
  refine (sweep_induction (P := fun a => P a ∧ Settled bs has target asks a) ?_ ⟨ha, hs⟩).2
  rintro a b hb a' ⟨ha, hs⟩ hu
  have ha' := h.keeps a b hb a' ha hu
  have hiff := h.has_iff a b hb a' ha hu
  have hback : ∀ x, has a' x → has a x := fun x hx => ((hiff x).1 hx).elim id fun ⟨hx, hask⟩ => hx ▸ hs b hb hask
  exact ⟨ha', fun c hc hask => (hiff _).2 (.inl (hs c hc (h.mono a' a ha' ha hback c hc hask)))⟩

theorem settled_passed (h : Spreads update bs P has target asks) (ha : P a) (k : Nat)
    (hk : n ≤ {x | has a x}.ncard + k) : Settled bs has target asks (passed (sweep update bs) k a) := by
  induction k generalizing a with
  | zero =>
    have hall : {x | has a x} = Set.univ :=
      Set.eq_of_subset_of_ncard_le (Set.subset_univ _) (by rw [Set.ncard_univ, Nat.card_fin]; exact hk)
    exact fun b _ _ => hall.ge (Set.mem_univ (target b))
  | succ k ih =>
    have hnext := h.keeps_sweep ha
    by_cases hidle : ∀ x, has (sweep update bs a).1 x → has a x
    · exact (passed_induction (P := fun a => P a ∧ Settled bs has target asks a)
        (fun a ⟨ha, hs⟩ => ⟨h.keeps_sweep ha, h.settled_sweep ha hs⟩) (k + 1)
        ⟨ha, h.settled_of_idle ha hidle⟩).2
    · have hmore : {x | has a x}.ncard < {x | has (sweep update bs a).1 x}.ncard :=
        Set.ncard_lt_ncard ⟨fun x hx => h.has_sweep ha hx, hidle⟩
      exact ih hnext (by omega)

end Spreads

end

end

section
variable {T : Type} [Terminal T] {g : Grammar T}

/-! ### FIRST -/

namespace FirstSets
variable {F F' N : FirstSets g} {p : g.Production} {t : T}

theorem nullable_of_absorb? (h : F.absorb? p = some F') (x : g.Nonterminal) :
    (F'.of x).nullable = true ↔
      (F.of x).nullable = true ∨ x = p.left ∧ (F.ofForm p.right).nullable = true := by
  obtain ⟨-, rfl⟩ := absorb?_eq_some_iff.1 h
  rw [of_set]
  split
  · next hx => subst hx; simp [FirstSet.union]
  · next hx => simp [Ne.symm hx]

theorem mem_of_absorb? (h : F.absorb? p = some F') (x : g.Nonterminal) :
    t ∈ (F'.of x).terminals ↔
      t ∈ (F.of x).terminals ∨ x = p.left ∧ t ∈ (F.ofForm p.right).terminals := by
  obtain ⟨-, rfl⟩ := absorb?_eq_some_iff.1 h
  rw [of_set]
  split
  · next hx => subst hx; simp [FirstSet.union]
  · next hx => simp [Ne.symm hx]

theorem spreads_nullable (g : Grammar T) :
    Spreads (absorb? (g := g)) g.productions (fun _ => True) (fun F x => (F.of x).nullable = true)
      (·.left) fun F p => (F.ofForm p.right).nullable = true where
  keeps _ _ _ _ _ _ := trivial
  idle _ _ _ _ hnone := (absorb?_eq_none_iff.1 hnone).2
  has_iff _ _ _ _ _ hsome := nullable_of_absorb? hsome
  mono _ _ _ _ hle _ _ := nullable_ofForm_mono hle

/-- All right-hand sides that can be empty are known as such. -/
def NullableSettled (F : FirstSets g) : Prop :=
  Settled g.productions (fun F x => (F.of x).nullable = true) Grammar.Production.left
    (fun F p => (F.ofForm p.right).nullable = true) F

/-- The same nonterminals can be empty. -/
def SameNullable (N F : FirstSets g) : Prop := ∀ x, (F.of x).nullable = true ↔ (N.of x).nullable = true

theorem SameNullable.absorb (hN : N.NullableSettled) (hF : N.SameNullable F)
    (h : F.absorb? p = some F') : N.SameNullable F' := by
  intro x
  rw [nullable_of_absorb? h, hF x]
  refine or_iff_left_of_imp ?_
  rintro ⟨rfl, hright⟩
  exact hN p (Grammar.mem_productions p) (nullable_ofForm_mono (fun x => (hF x).1) hright)

theorem SameNullable.settled (hN : N.NullableSettled) (hF : N.SameNullable F) : F.NullableSettled :=
  fun p hp hright => (hF p.left).2 (hN p hp (nullable_ofForm_mono (fun x => (hF x).1) hright))

theorem spreads_terminal (hN : N.NullableSettled) (t : T) :
    Spreads (absorb? (g := g)) g.productions N.SameNullable (fun F x => t ∈ (F.of x).terminals)
      (·.left) fun F p => t ∈ (F.ofForm p.right).terminals where
  keeps _ _ _ _ hF hsome := hF.absorb hN hsome
  idle _ _ _ _ hnone := (absorb?_eq_none_iff.1 hnone).1 t
  has_iff _ _ _ _ _ hsome := mem_of_absorb? hsome
  mono _ _ hF hF' hle _ _ := mem_ofForm_mono (fun x hx => (hF' x).2 ((hF x).1 hx)) hle

/-- After a pass for each nonterminal it is settled which can be empty, and after as many again which
terminals they begin with. -/
theorem unchanged_passed (F : FirstSets g) : (passed grow (g.size + g.size) F).grow.2 = false := by
  have hnullable : (passed grow g.size F).NullableSettled :=
    (spreads_nullable g).settled_passed trivial g.size (Nat.le_add_left ..)
  rw [passed_add]
  generalize passed grow g.size F = N at hnullable
  have hsame : N.SameNullable (passed grow g.size N) :=
    passed_induction (fun _ hF => sweep_induction (fun _ _ _ _ hF h => hF.absorb hnullable h) hF) _
      fun _ => Iff.rfl
  refine snd_sweep_eq_false_iff.2 fun p hp => absorb?_eq_none_iff.2 ⟨fun t => ?_, ?_⟩
  · exact (spreads_terminal hnullable t).settled_passed (fun _ => Iff.rfl) g.size (Nat.le_add_left ..) p hp
  · exact hsame.settled hnullable p hp

end FirstSets

/-! ### FOLLOW -/

namespace FollowSets
variable {F : FirstSets g} {W W' : FollowSets g} {o : Occurrence g} {t : T}

theorem mem_of_absorb? (h : absorb? F W o = some W') (x : g.Nonterminal) :
    t ∈ W'.of x ↔ t ∈ W.of x ∨ x = o.symbol ∧ t ∈ W.after F o := by
  obtain ⟨-, rfl⟩ := absorb?_eq_some_iff.1 h
  rw [of_set]
  split
  · next hx => subst hx; simp
  · next hx => simp [Ne.symm hx]

theorem spreads_terminal (F : FirstSets g) (t : T) :
    Spreads (absorb? F) (occurrences g) (fun _ => True) (fun W x => t ∈ W.of x) (·.symbol)
      fun W o => t ∈ W.after F o where
  keeps _ _ _ _ _ _ := trivial
  idle _ _ _ _ hnone := absorb?_eq_none_iff.1 hnone t
  has_iff _ _ _ _ _ hsome := mem_of_absorb? hsome
  mono _ _ _ _ hle o _ := by
    simp only [mem_after]
    exact Or.imp_right (And.imp_right (hle o.left))

theorem unchanged_passed (F : FirstSets g) (W : FollowSets g) :
    (grow F (passed (grow F) g.size W)).2 = false :=
  snd_sweep_eq_false_iff.2 fun o ho => absorb?_eq_none_iff.2 fun t =>
    (spreads_terminal F t).settled_passed trivial g.size (Nat.le_add_left ..) o ho

end FollowSets

/-- FIRST is found in at most two passes for each nonterminal and one more, and FOLLOW by any FIRST sets in
at most one for each nonterminal and one more, and it is the passes that stop, not the limit on their number:
a greater one gives the same. -/
theorem passes_le (g : Grammar T) :
    (g.first.passes ≤ 2 * g.size + 1 ∧
      ∀ more, saturate FirstSets.grow (g.first.passes + more) (FirstSets.empty g) = g.first) ∧
    ∀ F : FirstSets g, (Grammar.follow F).passes ≤ g.size + 1 ∧
      ∀ more, saturate (FollowSets.grow F) ((Grammar.follow F).passes + more) (FollowSets.initial g) =
        Grammar.follow F := by
  have hfirst : StopsWithin FirstSets.grow (2 * g.size + 1) (FirstSets.empty g) := by
    rw [Nat.two_mul]
    exact .of_passed (FirstSets.unchanged_passed _)
  obtain ⟨hstops, -⟩ := g.first_stops
  refine ⟨⟨hfirst.le hstops, fun more => hstops _ (Nat.le_add_right ..)⟩, fun F => ?_⟩
  have hfollow : StopsWithin (FollowSets.grow F) (g.size + 1) (FollowSets.initial g) :=
    .of_passed (FollowSets.unchanged_passed F _)
  obtain ⟨hstops, -⟩ := Grammar.follow_stops F
  exact ⟨hfollow.le hstops, fun more => hstops _ (Nat.le_add_right ..)⟩

end

end Predictive
