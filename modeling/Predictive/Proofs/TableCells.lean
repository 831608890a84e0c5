import Predictive.Table

/-!
# The cells of a finished table

`get?_build`: a table that was built has a production for a nonterminal and a terminal if and only if
the production is to be used on that terminal (`Production.UsedOn`). No cell is lost, since a cell that
is taken is never written again, and no cell is made up.
-/

namespace Predictive.Sorted
variable {α : Type} {cmp : α → α → Ordering}

theorem mem_insert_of_new {a : α} {l : List α} (h : ∀ b ∈ l, cmp a b ≠ .eq) : a ∈ insert cmp a l := by
  induction l with
  | nil => exact List.mem_singleton_self a
  | cons b l ih =>
    unfold insert
    split
    · exact List.mem_cons_self ..
    · next hab => exact absurd hab (h b (List.mem_cons_self ..))
    · exact List.mem_cons_of_mem b (ih fun c hc => h c (List.mem_cons_of_mem b hc))

end Predictive.Sorted

namespace Predictive
variable {T : Type} [Terminal T] {g : Grammar T}

/-- By the sets, the production is to be used on `t`: its right-hand side can begin with `t`, or it can
be empty and `t` can follow its left-hand side. -/
def Grammar.Production.UsedOn (F : FirstSets g) (W : FollowSets g) (p : g.Production) (t : T) : Prop :=
  t ∈ (F.ofForm p.right).terminals ∨ (F.ofForm p.right).nullable = true ∧ t ∈ W.of p.left

namespace Table
variable {F : FirstSets g} {W : FollowSets g} {table table' : Table g} {x : g.Nonterminal} {t : T}
  {p q : g.Production} {c d : Cell g}

theorem mem_lookaheads : t ∈ lookaheads F W p ↔ p.UsedOn F W t := by
  unfold lookaheads Grammar.Production.UsedOn
  dsimp only
  split <;> simp_all

theorem eq_of_mem_row (hc : c ∈ table.row x) (hd : d ∈ table.row x) (h : c.lookahead = d.lookahead) :
    c = d := by
  have hirrefl : Cell.compareLookahead c d ≠ .lt ∧ Cell.compareLookahead d c ≠ .lt := by
    simp [Cell.compareLookahead, compareOn, h, Std.ReflCmp.compare_self]
  have hpair := List.pairwise_iff_getElem.1 (table.increasing x)
  obtain ⟨i, hi, rfl⟩ := List.getElem_of_mem hc
  obtain ⟨j, hj, rfl⟩ := List.getElem_of_mem hd
  rcases Nat.lt_trichotomy i j with hij | rfl | hij
  · exact absurd (hpair i j hi hj hij) hirrefl.1
  · rfl
  · exact absurd (hpair j i hj hi hij) hirrefl.2

theorem get?_eq_some_iff : table.get? x t = some p ↔ ⟨p, t⟩ ∈ table.row x := by
  constructor
  · intro h
    obtain ⟨c, hc, rfl⟩ := Option.map_eq_some_iff.1 h
    have ht : c.lookahead = t := of_decide_eq_true (List.find?_some hc :)
    rw [← ht]; exact List.mem_of_find?_eq_some hc
  · intro h
    have hsome : ((table.row x).find? fun c => decide (c.lookahead = t)).isSome := by
      rw [List.find?_isSome]
      exact ⟨⟨p, t⟩, h, by simp⟩
    obtain ⟨c, hc⟩ := Option.isSome_iff_exists.1 hsome
    have ht : c.lookahead = t := of_decide_eq_true (List.find?_some hc :)
    have hcp : c = ⟨p, t⟩ := eq_of_mem_row (List.mem_of_find?_eq_some hc) h ht
    simp [get?, hc, hcp]

theorem mem_row_insert (h : table.get? c.nonterminal c.lookahead = none) :
    d ∈ (table.insert c).row x ↔ d ∈ table.row x ∨ d = c ∧ c.nonterminal = x := by
  have hnew : ∀ e ∈ table.row c.nonterminal, Cell.compareLookahead c e ≠ .eq := by
    intro e he heq
    have hl : c.lookahead = e.lookahead := Std.LawfulEqOrd.eq_of_compare heq
    have : table.get? c.nonterminal c.lookahead = some e.production :=
      get?_eq_some_iff.2 (by rw [hl]; exact he)
    rw [h] at this; cases this
  show d ∈ ((table.insert c).rows.get x) ↔ _
  simp only [insert, get_set]
  split
  · next hx =>
    subst hx
    constructor
    · intro hd
      rcases Sorted.mem_of_mem_insert hd with rfl | hd
      · exact .inr ⟨rfl, rfl⟩
      · exact .inl hd
    · rintro (hd | ⟨rfl, -⟩)
      · exact Sorted.mem_insert_of_mem hd
      · exact Sorted.mem_insert_of_new hnew
  · next hx => exact ⟨.inl, fun hd => hd.resolve_right fun hd => hx hd.2⟩

theorem get?_insert (h : table.get? c.nonterminal c.lookahead = none) :
    (table.insert c).get? x t = some q ↔
      table.get? x t = some q ∨ q = c.production ∧ c.nonterminal = x ∧ t = c.lookahead := by
  rw [get?_eq_some_iff, mem_row_insert h, get?_eq_some_iff]
  obtain ⟨p, a⟩ := c
  simp [and_assoc, and_comm, and_left_comm]

theorem get?_place {ts : List T} (h : place p ts table = .ok table') :
    table'.get? x t = some q ↔ table.get? x t = some q ∨ q = p ∧ p.left = x ∧ t ∈ ts := by
  induction ts generalizing table with
  | nil => cases h; simp
  | cons a ts ih =>
    unfold place at h
    split at h
    · cases h
    · next hnone =>
      rw [ih h, get?_insert (c := ⟨p, a⟩) hnone]
      simp only [List.mem_cons, Cell.nonterminal]
      constructor
      · rintro ((h | ⟨rfl, hx, rfl⟩) | ⟨rfl, hx, ht⟩)
        · exact .inl h
        · exact .inr ⟨rfl, hx, .inl rfl⟩
        · exact .inr ⟨rfl, hx, .inr ht⟩
      · rintro (h | ⟨rfl, hx, rfl | ht⟩)
        · exact .inl (.inl h)
        · exact .inl (.inr ⟨rfl, hx, rfl⟩)
        · exact .inr ⟨rfl, hx, ht⟩

theorem get?_fill {ps : List g.Production}
    (h : fill F W ps table = .ok table') :
    table'.get? x t = some q ↔
      table.get? x t = some q ∨ q ∈ ps ∧ q.left = x ∧ t ∈ lookaheads F W q := by
  induction ps generalizing table with
  | nil => cases h; simp
  | cons p ps ih =>
    unfold fill at h
    split at h
    · cases h
    · next placed hplaced =>
      rw [ih h, get?_place hplaced, TerminalSet.mem_toList]
      constructor
      · rintro ((h | ⟨rfl, hx, ht⟩) | ⟨hq, hx, ht⟩)
        · exact .inl h
        · exact .inr ⟨List.mem_cons_self .., hx, ht⟩
        · exact .inr ⟨List.mem_cons_of_mem p hq, hx, ht⟩
      · rintro (h | ⟨hq, hx, ht⟩)
        · exact .inl (.inl h)
        · rcases List.mem_cons.1 hq with rfl | hq
          · exact .inl (.inr ⟨rfl, hx, ht⟩)
          · exact .inr ⟨hq, hx, ht⟩

theorem get?_empty : (empty : Table g).get? x t = none := by
  simp [get?, row, empty, Vector.get]

/-- The cells of a table that was built. -/
theorem get?_build (h : build F W = .ok table) :
    table.get? x t = some p ↔ p.left = x ∧ p.UsedOn F W t := by
  rw [get?_fill h, get?_empty, mem_lookaheads]
  simp [Grammar.mem_productions]

end Table

end Predictive
