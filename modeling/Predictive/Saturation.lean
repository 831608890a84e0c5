/-!
# Saturation

A pass makes a list of updates one after the other, each to what the updates before it made, and says
whether there was anything to change (`sweep`). Passes are repeated until one changes nothing, and are
counted (`saturate`). The limit on the number of passes is for callers that know how often a pass can
change something; what they get is then left unchanged by a further pass.
-/

namespace Predictive

/-- One pass of updates, and whether one of them made a change. An update that has nothing to change
gives `none`. -/
def sweep {α β : Type} (update : α → β → Option α) : List β → α → α × Bool
  | [], a => (a, false)
  | b :: bs, a =>
    match update a b with
    | none => sweep update bs a
    | some next => ((sweep update bs next).1, true)

/-- A pass reports no change if no update of what it began with has anything to change. -/
theorem snd_sweep_eq_false_iff {α β : Type} {update : α → β → Option α} {bs : List β} {a : α} :
    (sweep update bs a).2 = false ↔ ∀ b ∈ bs, update a b = none := by
  induction bs with
  | nil => simp [sweep]
  | cons b bs ih => cases h : update a b <;> simp [sweep, h, ih]

theorem fst_sweep_eq_self {α β : Type} {update : α → β → Option α} {bs : List β} {a : α}
    (h : (sweep update bs a).2 = false) : (sweep update bs a).1 = a := by
  induction bs with
  | nil => rfl
  | cons b bs ih =>
    have hb := snd_sweep_eq_false_iff.1 h b (List.mem_cons_self ..)
    simp only [sweep, hb] at h ⊢
    exact ih h

theorem sweep_eq_self {α β : Type} {update : α → β → Option α} {bs : List β} {a : α}
    (h : ∀ b ∈ bs, update a b = none) : sweep update bs a = (a, false) := by
  have hs := snd_sweep_eq_false_iff.2 h
  exact Prod.ext (fst_sweep_eq_self hs) hs

/-- The value after the last pass, and the number of passes, the unchanging last one included. -/
structure Saturated (α : Type) where
  value : α
  passes : Nat
deriving DecidableEq, Repr

/-- Passes from `a` on until one reports no change, at most `limit` of them. -/
def saturate {α : Type} (pass : α → α × Bool) : (limit : Nat) → α → Saturated α
  | 0, a => ⟨a, 0⟩
  | limit + 1, a =>
    match pass a with
    | (b, false) => ⟨b, 1⟩
    | (b, true) =>
      let rest := saturate pass limit b
      ⟨rest.value, rest.passes + 1⟩

variable {α : Type} {pass : α → α × Bool}

/-- What each pass made and reported, in order, where `limit` passes or the unchanging one are the
last. -/
def history {α : Type} (pass : α → α × Bool) : (limit : Nat) → α → List (α × Bool)
  | 0, _ => []
  | limit + 1, a =>
    let made := pass a
    made :: if made.2 then history pass limit made.1 else []

theorem saturate_induction {P : α → Prop} (step : ∀ a, P a → P (pass a).1) (limit : Nat) {a : α}
    (h : P a) : P (saturate pass limit a).value := by
  induction limit generalizing a with
  | zero => exact h
  | succ limit ih =>
    have := step a h
    unfold saturate
    split
    · next b hb => rw [hb] at this; exact this
    · next b hb => rw [hb] at this; exact ih this

end Predictive
