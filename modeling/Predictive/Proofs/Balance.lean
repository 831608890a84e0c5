import Predictive.Postfix.Language

/-!
# Parentheses of programs

Every phrase of the language is balanced: nowhere are more parentheses closed than are open, and in the
end all are closed. A line is a balanced phrase in one more pair, so its own parenthesis closes at its end
and not before (`Balanced.eq_inParens`). Hence the lines can be counted off a program: what has been read
of it is a program exactly where no parenthesis is open (`IsProgram.of_prefix`), and what is left over is
empty or a program again (`IsProgram.append_iff`).
-/

namespace Predictive.Postfix
open Kind

theorem prefix_append_cases {α : Type} {u v w : List α} (h : w <+: u ++ v) :
    w <+: u ∨ ∃ q, q <+: v ∧ w = u ++ q := by
  obtain ⟨z, hz⟩ := h
  rcases List.append_eq_append_iff.1 hz with ⟨a, rfl, -⟩ | ⟨q, rfl, rfl⟩
  · exact .inl ⟨a, rfl⟩
  · exact .inr ⟨q, ⟨z, rfl⟩, rfl⟩

theorem prefix_inParens {u w : List Kind} (h : w <+: inParens u) :
    w = [] ∨ (∃ v, v <+: u ∧ w = openParen :: v) ∨ w = inParens u := by
  rcases List.prefix_cons_iff.1 h with rfl | ⟨v, rfl, hv⟩
  · exact .inl rfl
  rcases prefix_append_cases hv with hv | ⟨q, hq, rfl⟩
  · exact .inr (.inl ⟨v, hv, rfl⟩)
  · rcases List.prefix_cons_iff.1 hq with rfl | ⟨z, rfl, hz⟩
    · exact .inr (.inl ⟨u, List.prefix_rfl, by rw [List.append_nil]⟩)
    · rw [List.prefix_nil.1 hz]
      exact .inr (.inr rfl)

/-- As many parentheses are closed as are opened. -/
def Closes (w : List Kind) : Prop := w.count closeParen = w.count openParen

instance (w : List Kind) : Decidable (Closes w) := inferInstanceAs (Decidable (_ = _))

theorem closes_append_left {u v : List Kind} (hu : Closes u) : Closes (u ++ v) ↔ Closes v := by
  unfold Closes at hu ⊢
  rw [List.count_append, List.count_append, hu, Nat.add_left_cancel_iff]

theorem closes_append_right {u v : List Kind} (hv : Closes v) : Closes (u ++ v) ↔ Closes u := by
  unfold Closes at hv ⊢
  rw [List.count_append, List.count_append, hv, Nat.add_right_cancel_iff]

/-- No parenthesis is closed that is not open, and none is left open. -/
structure Balanced (w : List Kind) : Prop where
  along : ∀ u, u <+: w → u.count closeParen ≤ u.count openParen
  closes : Closes w

def IsParen (k : Kind) : Prop := k = openParen ∨ k = closeParen

instance (k : Kind) : Decidable (IsParen k) := inferInstanceAs (Decidable (_ ∨ _))

namespace Balanced
variable {u v w : List Kind} {k : Kind}

theorem append (hu : Balanced u) (hv : Balanced v) : Balanced (u ++ v) := by
  refine ⟨?_, (closes_append_left hu.closes).2 hv.closes⟩
  intro w hw
  rcases prefix_append_cases hw with hw | ⟨q, hq, rfl⟩
  · exact hu.along w hw
  · have hcloses : u.count closeParen = u.count openParen := hu.closes
    rw [List.count_append, List.count_append, hcloses]
    exact Nat.add_le_add_left (hv.along q hq) _

theorem singleton (hk : ¬ IsParen k) : Balanced [k] := by
  have hopen : k ≠ openParen := fun h => hk (.inl h)
  have hclose : k ≠ closeParen := fun h => hk (.inr h)
  refine ⟨fun u hu => ?_, ?_⟩
  · rcases List.prefix_cons_iff.1 hu with rfl | ⟨t, rfl, ht⟩
    · exact Nat.le_refl _
    · rw [List.prefix_nil.1 ht]
      simp [hclose]
  · simp [Closes, hopen, hclose]

theorem cons (hk : ¬ IsParen k) (hu : Balanced u) : Balanced (k :: u) := (singleton hk).append hu

/-- What begins a balanced string in parentheses and has closed all, is all of it. -/
theorem eq_inParens (hu : Balanced u) (hw : w <+: inParens u) (hne : w ≠ []) (hcloses : Closes w) :
    w = inParens u := by
  rcases prefix_inParens hw with rfl | ⟨v, hv, rfl⟩ | rfl
  · exact absurd rfl hne
  · have hle := hu.along v hv
    unfold Closes at hcloses
    rw [List.count_cons_self, List.count_cons_of_ne (by decide)] at hcloses
    omega
  · rfl

theorem inParens (hu : Balanced u) : Balanced (inParens u) := by
  have hcloses : Closes (Postfix.inParens u) := by
    have hclosesu : u.count closeParen = u.count openParen := hu.closes
    simp [Closes, Postfix.inParens, hclosesu]
  refine ⟨?_, hcloses⟩
  intro w hw
  rcases prefix_inParens hw with rfl | ⟨v, hv, rfl⟩ | rfl
  · exact Nat.le_refl _
  · have hle := hu.along v hv
    rw [List.count_cons_self, List.count_cons_of_ne (by decide)]
    omega
  · exact Nat.le_of_eq hcloses

end Balanced

/-! ### The phrases of the language -/

theorem not_isParen_of_mem {op : Kind} (h : op ∈ binaryOperators) : ¬ IsParen op := by
  have hall : ∀ op ∈ binaryOperators, ¬ IsParen op := by decide
  exact hall op h

theorem balanced_operand_and_expression :
    (∀ u, IsOperand u → Balanced u) ∧ ∀ u, IsExpression u → Balanced u := by
  have hnumber : Balanced [number] := .singleton (by decide)
  have hidentifier : Balanced [identifier] := .singleton (by decide)
  refine expression_induction hnumber hidentifier (fun u => .inParens) (fun u => id)
    (.cons (by decide) (.singleton (by decide))) ?negation (fun u v => .append) ?binary ?assignment
  case negation =>
    intro u hu
    exact hu.inParens.append (.singleton (by decide))
  case binary =>
    intro u v op hu hv hop
    exact (hu.append hv).append (.singleton (not_isParen_of_mem hop))
  case assignment =>
    intro u v op hu hv hop
    exact (hu.append hv).append (.cons (not_isParen_of_mem hop) hidentifier)

theorem IsExpression.balanced {u : List Kind} (h : IsExpression u) : Balanced u :=
  balanced_operand_and_expression.2 u h

theorem balanced_content_and_line : (∀ u, IsContent u → Balanced u) ∧ ∀ u, IsLine u → Balanced u := by
  have hnumber : Balanced [number] := .singleton (by decide)
  refine line_induction (fun u => IsExpression.balanced) ?bounds ?counter ?whileLoop ?ifElse (fun u => .inParens)
  case bounds =>
    intro line hline
    exact .cons (by decide) (((hnumber.inParens.append hnumber.inParens).append hnumber.inParens).append hline)
  case counter =>
    intro line hline
    exact .cons (by decide) (.cons (by decide) (.cons (by decide) (.cons (by decide) hline)))
  case whileLoop =>
    intro u line hu hline
    exact .cons (by decide) (hu.balanced.inParens.append hline)
  case ifElse =>
    intro u yes no hu hyes hno
    exact .cons (by decide) ((hu.balanced.inParens.append hyes).append hno)

theorem IsContent.balanced {u : List Kind} (h : IsContent u) : Balanced u := balanced_content_and_line.1 u h

theorem IsLine.balanced {u : List Kind} (h : IsLine u) : Balanced u := balanced_content_and_line.2 u h

theorem IsProgram.balanced {u : List Kind} (h : IsProgram u) : Balanced u := by
  induction h with
  | line hu => exact hu.balanced
  | cons hu _ ih => exact hu.balanced.append ih

/-! ### Counting off the lines -/

section
variable {l l' u v w : List Kind}

theorem IsLine.eq_of_prefix (hl : IsLine l) (hu : u <+: l) (hne : u ≠ []) (hcloses : Closes u) : u = l := by
  cases hl with
  | mk hc => exact hc.balanced.eq_inParens hu hne hcloses

/-- No line begins with another one. -/
theorem IsLine.eq_of_append (hl : IsLine l) (hl' : IsLine l') (h : l ++ u = l' ++ v) : l = l' ∧ u = v := by
  have heq : l = l' := by
    rcases List.append_eq_append_iff.1 h with ⟨a, rfl, -⟩ | ⟨a, rfl, -⟩
    · exact hl'.eq_of_prefix ⟨a, rfl⟩ hl.ne_nil hl.balanced.closes
    · exact (hl.eq_of_prefix ⟨a, rfl⟩ hl'.ne_nil hl'.balanced.closes).symm
  subst heq
  exact ⟨rfl, List.append_cancel_left h⟩

theorem IsProgram.of_prefix (hw : IsProgram w) (hu : u <+: w) (hne : u ≠ []) (hcloses : Closes u) :
    IsProgram u := by
  induction hw generalizing u with
  | line hl =>
    obtain rfl := hl.eq_of_prefix hu hne hcloses
    exact .line hl
  | @cons l v hl hv ih =>
    rcases prefix_append_cases hu with hu | ⟨q, hq, rfl⟩
    · obtain rfl := hl.eq_of_prefix hu hne hcloses
      exact .line hl
    · by_cases hnil : q = []
      · rw [hnil, List.append_nil]
        exact .line hl
      · exact .cons hl (ih hq hnil ((closes_append_left hl.balanced.closes).1 hcloses))

theorem IsProgram.of_line_append (hl : IsLine l) (h : IsProgram (l ++ v)) : v = [] ∨ IsProgram v := by
  generalize hw : l ++ v = w at h
  cases h with
  | line hl' =>
    rw [← List.append_nil w] at hw
    exact .inl (hl.eq_of_append hl' hw).2
  | @cons l' v' hl' hv' =>
    obtain ⟨-, rfl⟩ := hl.eq_of_append hl' hw
    exact .inr hv'

/-- A program goes on with nothing or with a program. -/
theorem IsProgram.append_iff (hu : IsProgram u) : IsProgram (u ++ v) ↔ v = [] ∨ IsProgram v := by
  constructor
  · intro h
    induction hu with
    | line hl => exact IsProgram.of_line_append hl h
    | @cons l u hl hu ih =>
      rw [List.append_assoc] at h
      rcases IsProgram.of_line_append hl h with hnil | h
      · exact absurd (List.append_eq_nil_iff.1 hnil).1 hu.ne_nil
      · exact ih h
  · rintro (rfl | hv)
    · rwa [List.append_nil]
    · exact hu.append hv

end

/-! ### Strings that are cut off -/

/-- What is left of a string of kinds when its text is cut: the kinds up to the cut, of which the last
one may have become another, unless it is a parenthesis. -/
inductive Cut : List Kind → List Kind → Prop where
  | nil (v : List Kind) : Cut [] v
  | last {x y : Kind} (v : List Kind) : ¬ IsParen x → ¬ IsParen y → Cut [x] (y :: v)
  | cons {u v : List Kind} (k : Kind) : Cut u v → Cut (k :: u) (k :: v)

namespace Cut
variable {u v w : List Kind}

theorem of_concat {x : Kind} (h : Cut u v) (hu : u = w ++ [x]) :
    u <+: v ∨ ¬ IsParen x ∧ ∃ y, ¬ IsParen y ∧ w ++ [y] <+: v := by
  induction h generalizing w with
  | nil => exact .inl List.nil_prefix
  | @last x' y v hx hy =>
    obtain ⟨rfl, rfl⟩ : w = [] ∧ x' = x := by
      cases w <;> simp_all
    exact .inr ⟨hx, y, hy, ⟨v, rfl⟩⟩
  | @cons u v k _ ih =>
    rcases List.cons_eq_append_iff.1 hu with ⟨rfl, hu⟩ | ⟨w, rfl, rfl⟩
    · obtain ⟨rfl, rfl⟩ := List.cons.inj hu
      exact .inl ⟨v, rfl⟩
    · rcases ih rfl with hprefix | ⟨hx, y, hy, hprefix⟩
      · exact .inl ((List.prefix_cons_inj k).2 hprefix)
      · exact .inr ⟨hx, y, hy, (List.prefix_cons_inj k).2 hprefix⟩

/-- What is left of a program is one exactly if something is left and all parentheses are closed. -/
theorem isProgram_iff (h : Cut u v) (hv : IsProgram v) : IsProgram u ↔ u ≠ [] ∧ Closes u := by
  constructor
  · intro hu
    exact ⟨hu.ne_nil, hu.balanced.closes⟩
  · rintro ⟨hne, hcloses⟩
    have hu := (List.dropLast_concat_getLast hne).symm
    rcases h.of_concat hu with hprefix | ⟨hx, y, hy, hprefix⟩
    · exact hv.of_prefix hprefix hne hcloses
    · -- a program ends in a parenthesis, so nothing can close at the last kind
      rw [hu, closes_append_right (Balanced.singleton hx).closes,
        ← closes_append_right (Balanced.singleton hy).closes] at hcloses
      obtain ⟨z, hz⟩ := (hv.of_prefix hprefix (by simp) hcloses).eq_concat
      obtain ⟨-, hyz⟩ := List.append_inj' hz rfl
      cases hyz
      exact absurd (.inr rfl) hy

end Cut

end Predictive.Postfix
