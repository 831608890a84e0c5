import Predictive.Proofs.FollowExact

/-!
# Where the solvers start does not matter

Passes from any sets between the initial ones and the solution end in the solution, which is the least
family of sets that a pass leaves unchanged and that has the initial ones (`solvers_confluent`).

An update sees what the updates before it in the same pass have made, so a pass does not read what it
adds off the sets that it began with, and which sets lie between two passes depends on the order of the
rules. What counts is said of one update (`Increasing`): it adds, and it does not lead out of any larger
sets that no update changes, because what is added grows with the sets that it is read off. Passes keep
both, so they stay below every such family and can only stop at the least.
-/

namespace Predictive

/-! ### Updates that only add -/

section
variable {α β : Type} {update : α → β → Option α} {bs : List β} {le : α → α → Prop} {size : α → Nat}
  {a c f : α}

/-- Passes from `a` on come to an end by themselves, in `b`: after as many passes one reports no change,
whatever number of them is allowed. -/
def SettlesIn (pass : α → α × Bool) (a b : α) : Prop :=
  ∃ passes, ∀ limit, passes ≤ limit → saturate pass limit a = ⟨b, passes⟩

namespace SettlesIn
variable {pass : α → α × Bool} {b : α}

theorem last (h : pass a = (b, false)) : SettlesIn pass a b := ⟨1, StopsAfter.last h⟩

theorem again (h : pass a = (b, true)) (hb : SettlesIn pass b c) : SettlesIn pass a c :=
  hb.imp' (· + 1) fun _ hstops => StopsAfter.again h hstops

end SettlesIn

/-- Updates make what they change larger, and stay below what none of them changes. -/
structure Increasing (update : α → β → Option α) (bs : List β) (le : α → α → Prop) (size : α → Nat) :
    Prop where
  refl : ∀ a, le a a
  trans : ∀ a b c, le a b → le b c → le a c
  antisymm : ∀ a b, le a b → le b a → a = b
  size_le : ∀ a b, le a b → size a ≤ size b
  adds : ∀ a, ∀ b ∈ bs, ∀ a', update a b = some a' → le a a' ∧ size a < size a'
  stays : ∀ a c, le a c → (∀ b ∈ bs, update c b = none) → ∀ b ∈ bs, ∀ a', update a b = some a' → le a' c

namespace Increasing

theorem le_sweep (h : Increasing update bs le size) (a : α) : le a (sweep update bs a).1 :=
  sweep_induction (fun _ b hb _ hle hu => h.trans _ _ _ hle (h.adds _ b hb _ hu).1) (h.refl a)

theorem size_lt_sweep (h : Increasing update bs le size) (hs : (sweep update bs a).2 = true) :
    size a < size (sweep update bs a).1 :=
  lt_sweep (P := fun _ => True) (fun a b hb a' _ hu => ⟨trivial, (h.adds a b hb a' hu).2⟩) trivial hs

/-- A pass reports a change exactly if it makes one. -/
theorem changed_iff (h : Increasing update bs le size) :
    (sweep update bs a).2 = true ↔ (sweep update bs a).1 ≠ a := by
  constructor
  · intro hs he
    have hlt := h.size_lt_sweep hs
    rw [he] at hlt
    exact Nat.lt_irrefl _ hlt
  · intro hne
    by_contra hs
    exact hne (fst_sweep_eq_self (Bool.eq_false_iff.2 hs))

theorem unchanged_iff (h : Increasing update bs le size) :
    (sweep update bs a).1 = a ↔ ∀ b ∈ bs, update a b = none := by
  rw [← snd_sweep_eq_false_iff, ← Bool.not_eq_true, h.changed_iff, not_not]

theorem sweep_le (h : Increasing update bs le size) (hle : le a c) (hc : ∀ b ∈ bs, update c b = none) :
    le (sweep update bs a).1 c :=
  sweep_induction (P := fun a => le a c) (fun a b hb a' hle hu => h.stays a c hle hc b hb a' hu) hle

theorem saturate_le (h : Increasing update bs le size) (limit : Nat) (hle : le a c)
    (hc : ∀ b ∈ bs, update c b = none) : le (saturate (sweep update bs) limit a).value c :=
  saturate_induction (P := fun a => le a c) (fun _ hle => h.sweep_le hle hc) limit hle

/-- Passes below the least of the families that no update changes end there. -/
theorem settlesIn (h : Increasing update bs le size) (hf : ∀ b ∈ bs, update f b = none) (ha : le a f)
    (hleast : ∀ c, le a c → (∀ b ∈ bs, update c b = none) → le f c) :
    SettlesIn (sweep update bs) a f := by
  induction hn : size f - size a using Nat.strongRecOn generalizing a with
  | ind n ih =>
    cases hs : (sweep update bs a).2 with
    | false =>
      have hfix : (sweep update bs a).1 = a := fst_sweep_eq_self hs
      have hfa : le f a := hleast a (h.refl a) (h.unchanged_iff.1 hfix)
      obtain rfl := h.antisymm _ _ ha hfa
      exact .last (Prod.ext hfix hs)
    | true =>
      have hlt := h.size_lt_sweep hs
      have hnext : le (sweep update bs a).1 f := h.sweep_le ha hf
      have hsize := h.size_le _ _ hnext
      have hpass : sweep update bs a = ((sweep update bs a).1, true) := Prod.ext rfl hs
      refine .again hpass (ih _ ?_ hnext (fun c hc => ?_) rfl)
      · omega
      · exact hleast c (h.trans _ _ _ (h.le_sweep a) hc)

end Increasing

end

section
variable {T : Type} [Terminal T] {g : Grammar T}

/-! ### FIRST -/

namespace FirstSet
variable {a b c : FirstSet T}

instance : Decidable (a.Subset b) := decidable_of_iff (b.union a = b) union_eq_self_iff

theorem Subset.trans (h : a.Subset b) (h' : b.Subset c) : a.Subset c :=
  ⟨fun t ht => h'.1 t (h.1 t ht), fun hn => h'.2 (h.2 hn)⟩

theorem Subset.antisymm (h : a.Subset b) (h' : b.Subset a) : a = b := by
  have hterminals : a.terminals = b.terminals := TerminalSet.ext fun t => ⟨h.1 t, h'.1 t⟩
  have hnullable : a.nullable = b.nullable := Bool.eq_iff_iff.2 ⟨h.2, h'.2⟩
  obtain ⟨s, m⟩ := a
  obtain ⟨u, n⟩ := b
  exact congrArg₂ mk hterminals hnullable

theorem Subset.card_le (h : a.Subset b) : a.card ≤ b.card := by
  have hterminals : a.terminals.card ≤ b.terminals.card := TerminalSet.card_le_length h.1
  have hnullable : a.nullable.toNat ≤ b.nullable.toNat := Bool.toNat_le_toNat h.2
  unfold card
  omega

theorem subset_union_left : a.Subset (a.union b) :=
  ⟨TerminalSet.subset_union_left, fun hn => by simp [union, hn]⟩

theorem union_subset (ha : a.Subset c) (hb : b.Subset c) : (a.union b).Subset c := by
  refine ⟨fun t ht => (TerminalSet.mem_union.1 ht).elim (ha.1 t) (hb.1 t), fun hn => ?_⟩
  simp only [union, Bool.or_eq_true] at hn
  exact hn.elim ha.2 hb.2

end FirstSet

namespace FirstSets
variable {F F' G : FirstSets g} {p : g.Production}

/-- Each nonterminal has at least as much in the other family. -/
def Subset (F G : FirstSets g) : Prop := ∀ x, (F.of x).Subset (G.of x)

instance : Decidable (F.Subset G) :=
  inferInstanceAs (Decidable (∀ x : Fin g.size, (F.of x).Subset (G.of x)))

theorem nullable_ofForm_mono (h : ∀ x, (F.of x).nullable = true → (G.of x).nullable = true) {u : g.Form}
    (hu : (F.ofForm u).nullable = true) : (G.ofForm u).nullable = true := by
  induction u with
  | nil => rfl
  | cons s u ih =>
    cases s with
    | terminal t => exact hu
    | epsilon => exact ih hu
    | nonterminal x =>
      simp only [nullable_ofForm_nonterminal, Bool.and_eq_true] at hu ⊢
      exact ⟨h x hu.1, ih hu.2⟩

/-- What begins a string by the one family begins it by the other, also behind what only the other lets
be empty. -/
theorem mem_ofForm_mono {t : T} (hn : ∀ x, (F.of x).nullable = true → (G.of x).nullable = true)
    (h : ∀ x, t ∈ (F.of x).terminals → t ∈ (G.of x).terminals) {u : g.Form}
    (hu : t ∈ (F.ofForm u).terminals) : t ∈ (G.ofForm u).terminals := by
  induction u with
  | nil => exact hu
  | cons s u ih =>
    cases s with
    | terminal a => exact hu
    | epsilon => exact ih hu
    | nonterminal x =>
      rw [mem_ofForm_nonterminal] at hu ⊢
      exact hu.imp (h x) fun hu => ⟨hn x hu.1, ih hu.2⟩

namespace Subset

theorem antisymm (h : F.Subset G) (h' : G.Subset F) : F = G := by
  refine Vector.ext fun i hi => ?_
  exact FirstSet.Subset.antisymm (h ⟨i, hi⟩) (h' ⟨i, hi⟩)

theorem total_le (h : F.Subset G) : F.total ≤ G.total :=
  Finset.sum_le_sum fun x _ => (h x).card_le

theorem ofForm (h : F.Subset G) (u : g.Form) : (F.ofForm u).Subset (G.ofForm u) :=
  ⟨fun t => mem_ofForm_mono (fun x => (h x).2) fun x => (h x).1 t, nullable_ofForm_mono fun x => (h x).2⟩

theorem of_absorb? (h : F.absorb? p = some F') : F.Subset F' := by
  obtain ⟨-, rfl⟩ := absorb?_eq_some_iff.1 h
  intro x
  rw [of_set]
  split
  · next hx => exact hx ▸ FirstSet.subset_union_left
  · exact subset_refl _

theorem absorb (h : F.Subset G) (hG : G.absorb? p = none) (hF : F.absorb? p = some F') :
    F'.Subset G := by
  obtain ⟨-, rfl⟩ := absorb?_eq_some_iff.1 hF
  intro x
  rw [of_set]
  split
  · next hx =>
    subst hx
    exact FirstSet.union_subset (h p.left) ((h.ofForm p.right).trans (absorb?_eq_none_iff.1 hG))
  · exact h x

end Subset

theorem increasing (g : Grammar T) :
    Increasing (absorb? (g := g)) g.productions Subset total where
  refl _ _ := subset_refl _
  trans _ _ _ h h' x := (h x).trans (h' x)
  antisymm _ _ := Subset.antisymm
  size_le _ _ := Subset.total_le
  adds _ _ _ _ h := ⟨.of_absorb? h, total_lt_of_absorb? h⟩
  stays _ _ h hG p hp _ := h.absorb (hG p hp)

theorem empty_subset (F : FirstSets g) : (empty g).Subset F := by
  intro x
  simp [empty, of, Vector.get, FirstSet.empty, FirstSet.Subset, TerminalSet.Subset]

end FirstSets

/-! ### FOLLOW -/

namespace FollowSets
variable {F : FirstSets g} {V W W' : FollowSets g} {o : Occurrence g}

/-- Each nonterminal has at least as much in the other family. -/
def Subset (V W : FollowSets g) : Prop := ∀ x, (V.of x).Subset (W.of x)

instance : Decidable (V.Subset W) :=
  have (x : Fin g.size) : Decidable ((V.of x).Subset (W.of x)) :=
    decidable_of_iff ((W.of x).union (V.of x) = W.of x) TerminalSet.union_eq_self_iff
  inferInstanceAs (Decidable (∀ x : Fin g.size, (V.of x).Subset (W.of x)))

namespace Subset

theorem antisymm (h : V.Subset W) (h' : W.Subset V) : V = W := by
  refine Vector.ext fun i hi => ?_
  exact TerminalSet.ext fun t => ⟨h ⟨i, hi⟩ t, h' ⟨i, hi⟩ t⟩

theorem total_le (h : V.Subset W) : V.total ≤ W.total :=
  Finset.sum_le_sum fun x _ => TerminalSet.card_le_length (h x)

theorem after (h : V.Subset W) (F : FirstSets g) (o : Occurrence g) :
    (V.after F o).Subset (W.after F o) := by
  intro t ht
  rw [mem_after] at ht ⊢
  exact ht.imp_right fun ht => ⟨ht.1, h o.left t ht.2⟩

theorem of_absorb? (h : absorb? F W o = some W') : W.Subset W' := by
  obtain ⟨-, rfl⟩ := absorb?_eq_some_iff.1 h
  intro x t ht
  rw [of_set]
  split
  · next hx => exact TerminalSet.subset_union_left t (hx ▸ ht)
  · exact ht

theorem absorb (h : W.Subset V) (hV : absorb? F V o = none) (hW : absorb? F W o = some W') :
    W'.Subset V := by
  obtain ⟨-, rfl⟩ := absorb?_eq_some_iff.1 hW
  intro x t ht
  rw [of_set] at ht
  split at ht
  · next hx =>
    subst hx
    rcases TerminalSet.mem_union.1 ht with ht | ht
    · exact h o.symbol t ht
    · exact absorb?_eq_none_iff.1 hV t (h.after F o t ht)
  · exact h x t ht

end Subset

theorem increasing (F : FirstSets g) : Increasing (absorb? F) (occurrences g) Subset total where
  refl _ _ _ ht := ht
  trans _ _ _ h h' x t ht := h' x t (h x t ht)
  antisymm _ _ := Subset.antisymm
  size_le _ _ := Subset.total_le
  adds _ _ _ _ h := ⟨.of_absorb? h, total_lt_of_absorb? h⟩
  stays _ _ h hV o ho _ := h.absorb (hV o ho)

end FollowSets

/-- A pass of either solver only adds, and reports a change exactly if it makes one. The solutions are
unchanged by a further pass and part of every family of sets that a pass leaves unchanged, if it has the
initial FOLLOW sets. From any sets between the initial ones and the solution, the passes stop with the
solution. -/
theorem solvers_confluent (g : Grammar T) :
    let F := g.first.value
    let W := (Grammar.follow F).value
    (∀ G : FirstSets g, G.Subset G.grow.1 ∧ (G.grow.2 = true ↔ G.grow.1 ≠ G)) ∧
    (∀ (G : FirstSets g) (V : FollowSets g), V.Subset (FollowSets.grow G V).1 ∧
      ((FollowSets.grow G V).2 = true ↔ (FollowSets.grow G V).1 ≠ V)) ∧
    F.grow = (F, false) ∧ FollowSets.grow F W = (W, false) ∧
    (∀ G : FirstSets g, G.grow.1 = G → F.Subset G) ∧
    (∀ V : FollowSets g, (FollowSets.initial g).Subset V → (FollowSets.grow F V).1 = V → W.Subset V) ∧
    (∀ G : FirstSets g, (FirstSets.empty g).Subset G → G.Subset F → SettlesIn FirstSets.grow G F) ∧
    ∀ V : FollowSets g, (FollowSets.initial g).Subset V → V.Subset W →
      SettlesIn (FollowSets.grow F) V W := by
  intro F W
  have first := FirstSets.increasing g
  have follow := FollowSets.increasing F
  have hF : ∀ p ∈ g.productions, F.absorb? p = none := fun p _ => Grammar.absorb?_first p
  have hW : ∀ o ∈ FollowSets.occurrences g, FollowSets.absorb? F W o = none := fun _ =>
    Grammar.absorb?_follow F
  have hleastF : ∀ G : FirstSets g, (FirstSets.empty g).Subset G →
      (∀ p ∈ g.productions, G.absorb? p = none) → F.Subset G := fun _ => first.saturate_le _
  have hleastW : ∀ V : FollowSets g, (FollowSets.initial g).Subset V →
      (∀ o ∈ FollowSets.occurrences g, FollowSets.absorb? F V o = none) → W.Subset V := fun _ =>
    follow.saturate_le _
  refine ⟨fun G => ⟨first.le_sweep G, first.changed_iff⟩,
    fun G V => ⟨(FollowSets.increasing G).le_sweep V, (FollowSets.increasing G).changed_iff⟩,
    sweep_eq_self hF, sweep_eq_self hW,
    fun G hG => hleastF G G.empty_subset (first.unchanged_iff.1 hG),
    fun V hV hfix => hleastW V hV (follow.unchanged_iff.1 hfix),
    fun G _ hG => first.settlesIn hF hG fun G' hG' hfix => ?_,
    fun V hV hVW => follow.settlesIn hW hVW fun V' hV' hfix => ?_⟩
  · exact hleastF G' G'.empty_subset hfix
  · exact hleastW V' (follow.trans _ _ _ hV hV') hfix

end

/-! ### A list in parentheses -/

namespace Listing
open Postfix (Kind)

def first : FirstSets grammar := grammar.first.value

def follow : FollowSets grammar := (Grammar.follow first).value

/-- The last alternative but one of the last nonterminal is known, and nothing else. -/
def minusOnly : FirstSets grammar := (FirstSets.empty grammar).set 2 ⟨.singleton .minus, false⟩

/-- Sets that no pass changes although a plus is said to begin a line. -/
def plusFirst : FirstSets grammar :=
  first.set grammar.start ((first.of grammar.start).union ⟨.singleton .plus, false⟩)

/-- The parenthesis is known to follow the items, but not the operator. -/
def itemsOnly : FollowSets grammar := (FollowSets.initial grammar).set items (.singleton .closeParen)

/-- Sets that no pass changes although a plus is said to follow a line. -/
def plusBehind : FollowSets grammar :=
  follow.set grammar.start ((follow.of grammar.start).insert .plus)

end Listing

/-- Passes do not come by these sets, and find the solution from them; other sets that passes leave
unchanged are larger. -/
theorem solvers_confluent_listing :
    Listing.minusOnly.Subset Listing.first ∧
    Listing.minusOnly ∉ ((history FirstSets.grow 9 (FirstSets.empty Listing.grammar)).map (·.1)) ∧
    SettlesIn FirstSets.grow Listing.minusOnly Listing.first ∧
    Listing.plusFirst.grow.1 = Listing.plusFirst ∧ Listing.first.Subset Listing.plusFirst ∧
    (FollowSets.initial Listing.grammar).Subset Listing.itemsOnly ∧
    Listing.itemsOnly.Subset Listing.follow ∧
    Listing.itemsOnly ∉
      ((history (FollowSets.grow Listing.first) 9 (FollowSets.initial Listing.grammar)).map (·.1)) ∧
    SettlesIn (FollowSets.grow Listing.first) Listing.itemsOnly Listing.follow ∧
    (FollowSets.grow Listing.first Listing.plusBehind).1 = Listing.plusBehind ∧
    Listing.follow.Subset Listing.plusBehind := by
  have hminus : Listing.minusOnly.Subset Listing.first := by decide +kernel
  have hplus : Listing.plusFirst.grow.1 = Listing.plusFirst := by decide +kernel
  have hinitial : (FollowSets.initial Listing.grammar).Subset Listing.itemsOnly := by decide +kernel
  have hitems : Listing.itemsOnly.Subset Listing.follow := by decide +kernel
  have hbehind : (FollowSets.grow Listing.first Listing.plusBehind).1 = Listing.plusBehind := by
    decide +kernel
  have hinitial' : (FollowSets.initial Listing.grammar).Subset Listing.plusBehind := by decide +kernel
  obtain ⟨-, -, -, -, hleastF, hleastW, hsettlesF, hsettlesW⟩ := solvers_confluent Listing.grammar
  exact ⟨hminus, by decide +kernel, hsettlesF _ (FirstSets.empty_subset _) hminus, hplus,
    hleastF _ hplus, hinitial, hitems, by decide +kernel, hsettlesW _ hinitial hitems, hbehind,
    hleastW _ hinitial' hbehind⟩

end Predictive
