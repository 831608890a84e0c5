import Mathlib.Logic.Relation
import Predictive.Grammar.Reachable
import Predictive.Proofs.RuleLanguages
import Predictive.Table

/-!
# The walk through right-hand sides finds what is reachable

A walk visits only what its roots lead to, and when it ends, every successor of a visited node has been
visited or had a mark before (`walk_closed`). So `preorder` lists all that the roots lead to
(`mem_preorder_iff`). Of a grammar these are the nonterminals that stand in some string derived from the
start symbol (`Grammar.mem_reachable_iff`): a nonterminal of a derived string comes, through right-hand
sides, from a nonterminal of the string that it is derived from (`Derives.leads`).
-/

namespace Predictive

/-! ### Walks -/

section
variable {n : Nat} {next : Fin n → List (Fin n)} {x y z : Fin n} {roots todo : List (Fin n)}
  {marks : Vector Bool n}

/-- Some path of successors goes from `x` to `y`. -/
def Leads (next : Fin n → List (Fin n)) (x y : Fin n) : Prop :=
  Relation.ReflTransGen (fun x y => y ∈ next x) x y

theorem leads_of_mem_walk (h : y ∈ walk next todo marks) : ∃ x ∈ todo, Leads next x y := by
  fun_induction walk next todo marks with
  | case1 => cases h
  | case2 marks x todo hx ih =>
    obtain ⟨z, hz, hleads⟩ := ih h
    exact ⟨z, List.mem_cons_of_mem x hz, hleads⟩
  | case3 marks x todo hx _ ih =>
    rcases List.mem_cons.1 h with rfl | h
    · exact ⟨y, List.mem_cons_self .., .refl⟩
    · obtain ⟨z, hz, hleads⟩ := ih h
      rcases List.mem_append.1 hz with hz | hz
      · exact ⟨x, List.mem_cons_self .., .head hz hleads⟩
      · exact ⟨z, List.mem_cons_of_mem x hz, hleads⟩

/-- The node had a mark before the walk, or the walk visits it. -/
def Seen (next : Fin n → List (Fin n)) (todo : List (Fin n)) (marks : Vector Bool n) (y : Fin n) : Prop :=
  marks.get y = true ∨ y ∈ walk next todo marks

theorem seen_cons_of_marked (h : marks.get x = true) :
    Seen next (x :: todo) marks y ↔ Seen next todo marks y := by
  rw [Seen, walk_cons_of_marked h, Seen]

theorem seen_cons_of_unmarked (h : marks.get x = false) :
    Seen next (x :: todo) marks y ↔ Seen next (next x ++ todo) (marks.set x true x.isLt) y := by
  rw [Seen, walk_cons_of_unmarked h, Seen, Table.get_set, List.mem_cons]
  by_cases hy : x = y
  · simp [hy]
  · simp [hy, Ne.symm hy]

/-- A walk sees what it was to visit, and the successors of what it visits. -/
theorem walk_closed (next : Fin n → List (Fin n)) (todo : List (Fin n)) (marks : Vector Bool n) :
    (∀ x ∈ todo, Seen next todo marks x) ∧
      ∀ y ∈ walk next todo marks, ∀ z ∈ next y, Seen next todo marks z := by
  fun_induction walk next todo marks with
  | case1 => simp
  | case2 marks x todo hx ih =>
    obtain ⟨htodo, hnext⟩ := ih
    simp only [seen_cons_of_marked hx]
    refine ⟨fun y hy => ?_, hnext⟩
    rcases List.mem_cons.1 hy with rfl | hy
    · exact .inl hx
    · exact htodo y hy
  | case3 marks x todo hx _ ih =>
    obtain ⟨htodo, hnext⟩ := ih
    simp only [seen_cons_of_unmarked (by simpa using hx)]
    constructor
    · intro y hy
      rcases List.mem_cons.1 hy with rfl | hy
      · exact .inl (by rw [Table.get_set, if_pos rfl])
      · exact htodo y (List.mem_append_right _ hy)
    · intro y hy z hz
      rcases List.mem_cons.1 hy with rfl | hy
      · exact htodo z (List.mem_append_left _ hz)
      · exact hnext y hy z hz

theorem mem_preorder_iff : y ∈ preorder next roots ↔ ∃ x ∈ roots, Leads next x y := by
  have hunmarked (z : Fin n) : Seen next roots (Vector.replicate n false) z ↔ z ∈ preorder next roots := by
    simp [Seen, preorder, Vector.get]
  obtain ⟨hroots, hnext⟩ := walk_closed next roots (Vector.replicate n false)
  simp only [hunmarked] at hroots hnext
  constructor
  · exact leads_of_mem_walk
  · rintro ⟨x, hx, hleads⟩
    induction hleads with
    | refl => exact hroots x hx
    | tail _ hz ih => exact hnext _ ih _ hz

end

namespace Grammar
variable {T : Type} {g : Grammar T} {x y : g.Nonterminal} {u v : g.Form}

/-! ### Reachable nonterminals -/

theorem mem_successors_iff :
    y ∈ g.successors x ↔ ∃ p : g.Production, p.left = x ∧ .nonterminal y ∈ p.right := by
  simp only [successors, List.mem_filterMap, List.mem_flatten]
  constructor
  · rintro ⟨s, ⟨u, hu, hs⟩, hy⟩
    obtain ⟨i, rfl⟩ := exists_right_eq hu
    cases s <;> cases hy
    exact ⟨⟨x, i⟩, rfl, hs⟩
  · rintro ⟨p, rfl, hy⟩
    exact ⟨.nonterminal y, ⟨p.right, p.right_mem, hy⟩, rfl⟩

/-- A nonterminal of a derived string comes from a nonterminal of the string that it is derived from. -/
theorem Derives.leads (h : g.Derives u v) (hy : .nonterminal y ∈ v) :
    ∃ x, .nonterminal x ∈ u ∧ Leads g.successors x y := by
  induction h with
  | refl => exact ⟨y, hy, .refl⟩
  | head step _ ih =>
    obtain ⟨z, hz, hleads⟩ := ih hy
    cases step with
    | replace p a b =>
      simp only [List.mem_append] at hz
      rcases hz with (hz | hz) | hz
      · exact ⟨z, by simp [hz], hleads⟩
      · exact ⟨p.left, by simp, .head (mem_successors_iff.2 ⟨p, rfl, hz⟩) hleads⟩
      · exact ⟨z, by simp [hz], hleads⟩
    | drop a b =>
      rcases List.mem_append.1 hz with hz | hz
      · exact ⟨z, by simp [hz], hleads⟩
      · exact ⟨z, by simp [hz], hleads⟩

theorem isReachable_start (g : Grammar T) : g.IsReachable g.start := ⟨[], [], .refl _⟩

theorem IsReachable.of_mem_right {p : g.Production} (h : g.IsReachable p.left)
    (hy : .nonterminal y ∈ p.right) : g.IsReachable y := by
  obtain ⟨a, b, hab⟩ := h
  obtain ⟨c, d, hcd⟩ := List.append_of_mem hy
  have hright := (Derives.production p).context a b
  rw [hcd] at hright
  exact ⟨a ++ c, d ++ b, hab.trans (by simpa using hright)⟩

theorem isReachable_iff_leads : g.IsReachable x ↔ Leads g.successors g.start x := by
  constructor
  · rintro ⟨a, b, h⟩
    obtain ⟨y, hy, hleads⟩ := h.leads (y := x) (by simp)
    cases List.mem_singleton.1 hy
    exact hleads
  · intro h
    induction h with
    | refl => exact g.isReachable_start
    | tail _ hnext ih =>
      obtain ⟨p, rfl, hright⟩ := mem_successors_iff.1 hnext
      exact ih.of_mem_right hright

theorem mem_reachable_iff : x ∈ g.reachable ↔ g.IsReachable x := by
  rw [reachable, mem_preorder_iff, isReachable_iff_leads]
  simp

end Grammar

end Predictive
