/-!
# Sorted lists

Lists that increase strictly by a comparison `cmp`. `Sorted.insert cmp a l` puts `a` at its place in
such a list, unless an element equal to `a` by `cmp` is there already, and `Sorted.merge cmp l m` has the
elements of both lists, once each. The results increase strictly again (`Sorted.pairwise_insert`,
`Sorted.pairwise_merge`), and two such lists with the same members are the same list (`Sorted.ext`).
-/

namespace Predictive.Sorted
variable {α : Type} {cmp : α → α → Ordering}

def insert (cmp : α → α → Ordering) (a : α) : List α → List α
  | [] => [a]
  | b :: l =>
    match cmp a b with
    | .lt => a :: b :: l
    | .eq => b :: l
    | .gt => b :: insert cmp a l

theorem mem_of_mem_insert {a x : α} {l : List α} (h : x ∈ insert cmp a l) : x = a ∨ x ∈ l := by
  induction l with
  | nil => simpa [insert] using h
  | cons b l ih =>
    unfold insert at h
    split at h
    · simpa using h
    · exact .inr h
    · rcases List.mem_cons.1 h with rfl | h
      · exact .inr (List.mem_cons_self ..)
      · exact (ih h).imp_right (List.mem_cons_of_mem b)

theorem mem_insert_of_mem {a x : α} {l : List α} (h : x ∈ l) : x ∈ insert cmp a l := by
  induction l with
  | nil => simp at h
  | cons b l ih =>
    unfold insert
    split
    · exact List.mem_cons_of_mem a h
    · exact h
    · rcases List.mem_cons.1 h with rfl | h
      · exact List.mem_cons_self ..
      · exact List.mem_cons_of_mem b (ih h)

theorem mem_insert_self [Std.LawfulEqCmp cmp] (a : α) (l : List α) : a ∈ insert cmp a l := by
  induction l with
  | nil => simp [insert]
  | cons b l ih =>
    unfold insert
    split
    · exact List.mem_cons_self ..
    · next h => exact Std.LawfulEqCmp.eq_of_compare h ▸ List.mem_cons_self ..
    · exact List.mem_cons_of_mem b ih

theorem mem_insert [Std.LawfulEqCmp cmp] {a x : α} {l : List α} :
    x ∈ insert cmp a l ↔ x = a ∨ x ∈ l := by
  refine ⟨mem_of_mem_insert, ?_⟩
  rintro (rfl | h)
  · exact mem_insert_self x l
  · exact mem_insert_of_mem h

theorem pairwise_insert [Std.TransCmp cmp] (a : α) {l : List α}
    (h : l.Pairwise (cmp · · = .lt)) : (insert cmp a l).Pairwise (cmp · · = .lt) := by
  induction l with
  | nil => simp [insert]
  | cons b l ih =>
    have hb := List.pairwise_cons.1 h
    unfold insert
    split
    · next hab =>
      refine List.pairwise_cons.2 ⟨fun x hx => ?_, h⟩
      rcases List.mem_cons.1 hx with rfl | hx
      · exact hab
      · exact Std.TransCmp.lt_trans hab (hb.1 x hx)
    · exact h
    · next hab =>
      refine List.pairwise_cons.2 ⟨fun x hx => ?_, ih hb.2⟩
      rcases mem_of_mem_insert hx with rfl | hx
      · exact Std.OrientedCmp.lt_of_gt hab
      · exact hb.1 x hx

/-- The elements of a list with `a` and the list `l` after it, where `merge` merges with `l`. -/
def mergeCons (cmp : α → α → Ordering) (a : α) (merge : List α → List α) : List α → List α
  | [] => a :: merge []
  | b :: m =>
    match cmp a b with
    | .lt => a :: merge (b :: m)
    | .eq => a :: merge m
    | .gt => b :: mergeCons cmp a merge m

/-- The elements of both lists. -/
def merge (cmp : α → α → Ordering) : List α → List α → List α
  | [], m => m
  | a :: l, m => mergeCons cmp a (merge cmp l) m

theorem mem_merge [Std.LawfulEqCmp cmp] {x : α} {l m : List α} :
    x ∈ merge cmp l m ↔ x ∈ l ∨ x ∈ m := by
  induction l generalizing m with
  | nil => simp [merge]
  | cons a l ih =>
    unfold merge
    induction m with
    | nil => simp [mergeCons, ih]
    | cons b m ihm =>
      unfold mergeCons
      split
      · simp [ih, or_assoc]
      · next h => simp [ih, Std.LawfulEqCmp.eq_of_compare h, or_assoc, or_left_comm]
      · simp [ihm, or_left_comm]

theorem pairwise_merge [Std.TransCmp cmp] [Std.LawfulEqCmp cmp] {l m : List α}
    (hl : l.Pairwise (cmp · · = .lt)) (hm : m.Pairwise (cmp · · = .lt)) :
    (merge cmp l m).Pairwise (cmp · · = .lt) := by
  induction l generalizing m with
  | nil => exact hm
  | cons a l ih =>
    have hl' := List.pairwise_cons.1 hl
    have lt_cons : ∀ {b m}, cmp a b = .lt → (b :: m).Pairwise (cmp · · = .lt) →
        ∀ x ∈ b :: m, cmp a x = .lt := by
      intro b m hab hbm x hx
      rcases List.mem_cons.1 hx with rfl | hx
      · exact hab
      · exact Std.TransCmp.lt_trans hab ((List.pairwise_cons.1 hbm).1 x hx)
    unfold merge
    induction m with
    | nil => exact List.pairwise_cons.2 ⟨by simpa [mem_merge] using hl'.1, ih hl'.2 hm⟩
    | cons b m ihm =>
      have hm' := List.pairwise_cons.1 hm
      unfold mergeCons
      split
      · next hab =>
        refine List.pairwise_cons.2 ⟨fun x hx => ?_, ih hl'.2 hm⟩
        exact (mem_merge.1 hx).elim (hl'.1 x) (lt_cons hab hm x)
      · next hab =>
        have := Std.LawfulEqCmp.eq_of_compare hab
        subst this
        refine List.pairwise_cons.2 ⟨fun x hx => ?_, ih hl'.2 hm'.2⟩
        exact (mem_merge.1 hx).elim (hl'.1 x) (hm'.1 x)
      · next hab =>
        have hba := Std.OrientedCmp.lt_of_gt hab
        refine List.pairwise_cons.2 ⟨fun x hx => ?_, ihm hm'.2⟩
        have hx : x ∈ merge cmp (a :: l) m := hx
        rcases mem_merge.1 hx with hx | hx
        · rcases List.mem_cons.1 hx with rfl | hx
          · exact hba
          · exact Std.TransCmp.lt_trans hba (hl'.1 x hx)
        · exact hm'.1 x hx

theorem ext [Std.TransCmp cmp] [Std.LawfulEqCmp cmp] {l m : List α}
    (hl : l.Pairwise (cmp · · = .lt)) (hm : m.Pairwise (cmp · · = .lt))
    (h : ∀ x, x ∈ l ↔ x ∈ m) : l = m := by
  induction l generalizing m with
  | nil =>
    cases m with
    | nil => rfl
    | cons b m => exact absurd ((h b).2 (List.mem_cons_self ..)) (by simp)
  | cons a l ih =>
    cases m with
    | nil => exact absurd ((h a).1 (List.mem_cons_self ..)) (by simp)
    | cons b m =>
      have hl' := List.pairwise_cons.1 hl
      have hm' := List.pairwise_cons.1 hm
      have irrefl : ∀ x : α, cmp x x ≠ .lt := fun x => by simp [Std.ReflCmp.compare_self]
      have hab : a = b := by
        rcases List.mem_cons.1 ((h a).1 (List.mem_cons_self ..)) with hab | ham
        · exact hab
        · rcases List.mem_cons.1 ((h b).2 (List.mem_cons_self ..)) with hba | hbl
          · exact hba.symm
          · exact absurd (Std.TransCmp.lt_trans (hl'.1 b hbl) (hm'.1 a ham)) (irrefl a)
      subst hab
      refine congrArg _ (ih hl'.2 hm'.2 fun x => ?_)
      have hx := h x
      simp only [List.mem_cons] at hx
      constructor
      · intro hxl
        exact (hx.1 (.inr hxl)).resolve_left fun e => irrefl a (e ▸ hl'.1 x hxl)
      · intro hxm
        exact (hx.2 (.inr hxm)).resolve_left fun e => irrefl a (e ▸ hm'.1 x hxm)

end Predictive.Sorted
