import Predictive.Proofs.FollowExact
import Predictive.Proofs.Rebuilding
import Predictive.Proofs.TableConflicts

/-!
# Grammars inside grammars

`Embedding g g'` places the nonterminals of `g` among those of `g'` such that names, start symbol and
alternatives stay the same. What an embedded string derives in `g'` is then embedded itself
(`derives_inv`): nothing of `g'` that is not in `g` comes in. So FIRST is the same in both (`first_eq`),
while FOLLOW can be larger in `g'`, where more strings are derived (`follow_subset`). Hence a production
is to be used in `g'` wherever it is in `g`, so if `g'` has a table then so does `g` (`exists_table`), with
cells that the table of `g'` has, too (`exists_get?`).
-/

namespace Predictive

theorem Symbol.map_rename_rename {T K M N : Type} {f : K → M} {f' : M → N} (u : List (Symbol T K)) :
    (u.map (rename f)).map (rename f') = u.map (rename fun x => f' (f x)) := by
  rw [List.map_map]
  refine List.map_congr_left fun s _ => ?_
  cases s <;> rfl

theorem FirstSets.ofForm_singleton_eq {T : Type} [Terminal T] {g : Grammar T} (F : FirstSets g)
    (x : g.Nonterminal) : F.ofForm [.nonterminal x] = F.of x := by
  have hterminals : (F.ofForm [.nonterminal x]).terminals = (F.of x).terminals := by
    refine TerminalSet.ext fun t => ?_
    rw [mem_ofForm_nonterminal]
    simp [ofForm]
  have hnullable : (F.ofForm [.nonterminal x]).nullable = (F.of x).nullable := by
    rw [nullable_ofForm_nonterminal]
    simp [ofForm]
  exact congrArg₂ FirstSet.mk hterminals hnullable

namespace Grammar

/-- A place in `g'` for every nonterminal of `g`, with the name and the alternatives that it has in `g`. -/
structure Embedding {T : Type} (g g' : Grammar T) where
  map : g.Nonterminal → g'.Nonterminal
  name_map : ∀ x, g'.name (map x) = g.name x
  injective : Function.Injective map
  start : g'.start = map g.start
  mem_alternativesOf : ∀ x v, v ∈ g'.alternativesOf (map x) ↔
    ∃ u ∈ g.alternativesOf x, u.map (Symbol.rename map) = v

namespace Embedding

section
variable {T : Type} {g g' : Grammar T} (E : Embedding g g') {p q : g.Production} {p' : g'.Production}
  {u v : g.Form} {v' : g'.Form}

/-- The string with its nonterminals replaced by their places. -/
def form (u : g.Form) : g'.Form := u.map (Symbol.rename E.map)

@[simp] theorem form_nil : E.form [] = [] := rfl

@[simp] theorem form_append (u v : g.Form) : E.form (u ++ v) = E.form u ++ E.form v := List.map_append

@[simp] theorem form_terminal (t : T) (u : g.Form) :
    E.form (.terminal t :: u) = .terminal t :: E.form u := rfl

@[simp] theorem form_nonterminal (x : g.Nonterminal) (u : g.Form) :
    E.form (.nonterminal x :: u) = .nonterminal (E.map x) :: E.form u := rfl

@[simp] theorem form_epsilon (u : g.Form) : E.form (.epsilon :: u) = .epsilon :: E.form u := rfl

theorem form_injective : Function.Injective E.form := (Symbol.rename_injective E.injective).list_map

theorem eq_nil_of_form (h : E.form u = []) : u = [] := List.map_eq_nil_iff.1 h

theorem eq_append_of_form {a b : g'.Form} (h : E.form u = a ++ b) :
    ∃ c d, u = c ++ d ∧ E.form c = a ∧ E.form d = b := List.map_eq_append_iff.1 h

theorem eq_terminal_of_form {t : T} (h : E.form u = .terminal t :: v') :
    ∃ v, u = .terminal t :: v ∧ E.form v = v' := by
  obtain ⟨s, v, rfl, hs, rfl⟩ := List.map_eq_cons_iff.1 h
  cases s <;> cases hs
  exact ⟨v, rfl, rfl⟩

theorem eq_nonterminal_of_form {y : g'.Nonterminal} (h : E.form u = .nonterminal y :: v') :
    ∃ x v, u = .nonterminal x :: v ∧ E.map x = y ∧ E.form v = v' := by
  obtain ⟨s, v, rfl, hs, rfl⟩ := List.map_eq_cons_iff.1 h
  cases s <;> cases hs
  exact ⟨_, v, rfl, rfl, rfl⟩

theorem eq_epsilon_of_form (h : E.form u = .epsilon :: v') : ∃ v, u = .epsilon :: v ∧ E.form v = v' := by
  obtain ⟨s, v, rfl, hs, rfl⟩ := List.map_eq_cons_iff.1 h
  cases s <;> cases hs
  exact ⟨v, rfl, rfl⟩

theorem map_rename_form (u : g.Form) :
    (E.form u).map (Symbol.rename g'.name) = u.map (Symbol.rename g.name) := by
  rw [form, Symbol.map_rename_rename, funext E.name_map]

/-! ### Productions -/

/-- The production of `g'` is that of `g`. -/
structure IsImage (p : g.Production) (p' : g'.Production) : Prop where
  left : p'.left = E.map p.left
  right : p'.right = E.form p.right

theorem exists_production {x : g'.Nonterminal} {v : g'.Form} (hv : v ∈ g'.alternativesOf x) :
    ∃ p' : g'.Production, p'.left = x ∧ p'.right = v := by
  obtain ⟨i, hi, rfl⟩ := List.getElem_of_mem hv
  exact ⟨⟨x, ⟨i, hi⟩⟩, rfl, rfl⟩

theorem exists_isImage (p : g.Production) : ∃ p', E.IsImage p p' := by
  obtain ⟨p', hleft, hright⟩ := exists_production ((E.mem_alternativesOf p.left _).2 ⟨_, p.right_mem, rfl⟩)
  exact ⟨p', hleft, hright⟩

theorem exists_of_left {x : g.Nonterminal} (hp : p'.left = E.map x) : ∃ p, p.left = x ∧ E.IsImage p p' := by
  have hright := p'.right_mem
  rw [hp, E.mem_alternativesOf] at hright
  obtain ⟨u, hu, hright⟩ := hright
  obtain ⟨p, rfl, rfl⟩ := exists_production hu
  exact ⟨p, rfl, hp, hright.symm⟩

/-! ### Derivations -/

theorem yields (h : g.Yields u v) : g'.Yields (E.form u) (E.form v) := by
  cases h with
  | replace p a b =>
    obtain ⟨p', hleft, hright⟩ := E.exists_isImage p
    have hstep := Yields.replace p' (E.form a) (E.form b)
    rw [hleft, hright] at hstep
    simpa using hstep
  | drop a b => simpa using Yields.drop (E.form a) (E.form b)

theorem yields_inv (h : g'.Yields (E.form u) v') : ∃ v, E.form v = v' ∧ g.Yields u v := by
  generalize hu : E.form u = u' at h
  cases h with
  | replace p' a b =>
    obtain ⟨a, d, rfl, rfl, hd⟩ := E.eq_append_of_form hu
    obtain ⟨x, b, rfl, hx, rfl⟩ := E.eq_nonterminal_of_form hd
    obtain ⟨p, rfl, himage⟩ := E.exists_of_left hx.symm
    exact ⟨a ++ p.right ++ b, by simp [himage.right], .replace p a b⟩
  | drop a b =>
    obtain ⟨a, d, rfl, rfl, hd⟩ := E.eq_append_of_form hu
    obtain ⟨b, rfl, rfl⟩ := E.eq_epsilon_of_form hd
    exact ⟨a ++ b, by simp, .drop a b⟩

theorem derives (h : g.Derives u v) : g'.Derives (E.form u) (E.form v) := by
  induction h with
  | refl => exact .refl _
  | head step _ ih => exact .head (E.yields step) ih

theorem derives_inv (h : g'.Derives (E.form u) v') : ∃ v, E.form v = v' ∧ g.Derives u v := by
  generalize hu : E.form u = u' at h
  induction h generalizing u with
  | refl => exact ⟨u, hu, .refl u⟩
  | head step _ ih =>
    subst hu
    obtain ⟨v, hv, hstep⟩ := E.yields_inv step
    obtain ⟨w, rfl, hrest⟩ := ih hv
    exact ⟨w, rfl, .head hstep hrest⟩

theorem derives_nil_iff : g'.Derives (E.form u) [] ↔ g.Derives u [] := by
  constructor
  · intro h
    obtain ⟨v, hv, hd⟩ := E.derives_inv h
    rwa [E.eq_nil_of_form hv] at hd
  · exact E.derives

end

section
variable {T : Type} [Terminal T] {g g' : Grammar T} (E : Embedding g g') {p q : g.Production}
  {p' q' : g'.Production} {x : g.Nonterminal} {u : g.Form} {t : T}

/-! ### FIRST and FOLLOW -/

theorem begins_iff : g'.Begins t (E.form u) ↔ g.Begins t u := by
  rw [begins_iff_derives, begins_iff_derives]
  constructor
  · rintro ⟨v', h⟩
    obtain ⟨w, hw, hd⟩ := E.derives_inv h
    obtain ⟨v, rfl, -⟩ := E.eq_terminal_of_form hw
    exact ⟨v, hd⟩
  · rintro ⟨v, h⟩
    exact ⟨E.form v, E.derives h⟩

theorem ofForm_eq (u : g.Form) : g'.first.value.ofForm (E.form u) = g.first.value.ofForm u := by
  have hterminals : (g'.first.value.ofForm (E.form u)).terminals = (g.first.value.ofForm u).terminals := by
    refine TerminalSet.ext fun t => ?_
    rw [mem_first_iff, mem_first_iff, E.begins_iff]
  have hnullable : (g'.first.value.ofForm (E.form u)).nullable = (g.first.value.ofForm u).nullable := by
    rw [Bool.eq_iff_iff, nullable_first_iff, nullable_first_iff, E.derives_nil_iff]
  exact congrArg₂ FirstSet.mk hterminals hnullable

theorem first_eq (x : g.Nonterminal) : g'.first.value.of (E.map x) = g.first.value.of x := by
  have hform := E.ofForm_eq [.nonterminal x]
  rwa [form_nonterminal, form_nil, FirstSets.ofForm_singleton_eq, FirstSets.ofForm_singleton_eq] at hform

theorem follow_subset (h : t ∈ (follow g.first.value).value.of x) :
    t ∈ (follow g'.first.value).value.of (E.map x) := by
  rw [mem_follow_iff] at h ⊢
  rcases h with ⟨y, a, b, h⟩ | ⟨rfl, a, h⟩
  · exact .inl ⟨E.map y, E.form a, E.form b, by simpa using E.derives h⟩
  · refine .inr ⟨rfl, E.form a, ?_⟩
    rw [E.start]
    simpa using E.derives h

/-! ### Tables -/

theorem eq_of_isImage (hp : E.IsImage p p') (hq : E.IsImage q p')
    (hg : g.WellFormed) : p = q := by
  obtain ⟨x, i⟩ := p
  obtain ⟨y, j⟩ := q
  obtain rfl : x = y := E.injective (hp.left.symm.trans hq.left)
  have hright : (g.alternativesOf x).get i = (g.alternativesOf x).get j :=
    E.form_injective (hp.right.symm.trans hq.right)
  rw [(hg.nodup x).get_inj_iff.1 hright]

theorem usedOn (himage : E.IsImage p p')
    (h : p.UsedOn g.first.value (follow g.first.value).value t) :
    p'.UsedOn g'.first.value (follow g'.first.value).value t := by
  unfold Production.UsedOn at h ⊢
  rw [himage.left, himage.right, E.ofForm_eq]
  rcases h with h | ⟨hnullable, h⟩
  · exact .inl h
  · exact .inr ⟨hnullable, E.follow_subset h⟩

/-- The production of the table of `g` is in the same place of that of `g'`. -/
theorem exists_get? {table : Table g} {table' : Table g'} (htable : Table.ofGrammar g = .ok table)
    (htable' : Table.ofGrammar g' = .ok table') (h : table.get? x t = some p) :
    ∃ p', E.IsImage p p' ∧ table'.get? (E.map x) t = some p' := by
  obtain ⟨rfl, hused⟩ := (Table.get?_build htable).1 h
  obtain ⟨p', himage⟩ := E.exists_isImage p
  exact ⟨p', himage, (Table.get?_build htable').2 ⟨himage.left, E.usedOn himage hused⟩⟩

include E in
theorem exists_table (hg : g.WellFormed) (h : ∃ table', Table.ofGrammar g' = .ok table') :
    ∃ table, Table.ofGrammar g = .ok table := by
  obtain ⟨table', htable'⟩ := h
  cases h : Table.ofGrammar g with
  | ok table => exact ⟨table, rfl⟩
  | error c =>
    obtain ⟨hp, q, hbefore, hq⟩ := (Table.isFirst_of_build h).contested
    obtain ⟨p', hp'⟩ := E.exists_isImage c.candidate
    obtain ⟨q', hq'⟩ := E.exists_isImage q
    -- both would be in one cell of the table of `g'`
    have hcell := (Table.get?_build htable').2 ⟨hp'.left, E.usedOn hp' hp⟩
    rw [← hbefore.1, (Table.get?_build htable').2 ⟨hq'.left, E.usedOn hq' hq⟩] at hcell
    obtain rfl := Option.some.inj hcell
    exact absurd (E.eq_of_isImage hq' hp' hg) hbefore.ne

end

end Embedding

/-! ### Grammars with the same rules -/

section
variable {T : Type} {g g' : Grammar T}

theorem ruleOf_injective (hg : ∀ x y, g.name x = g.name y → x = y) (x : g.Nonterminal) :
    Function.Injective (g.ruleOf x) := by
  intro u v huv
  have hname : Function.Injective g.name := fun y z => hg y z
  exact (Symbol.rename_injective hname).list_map (congrArg Rule.right huv)

/-- A grammar embeds in one that has its names, with the same rules for them. -/
theorem exists_embedding (hg : ∀ x y, g.name x = g.name y → x = y)
    (hg' : ∀ x y, g'.name x = g'.name y → x = y) (hname : ∀ x, ∃ x', g'.name x' = g.name x)
    (hstart : g.name g.start = g'.name g'.start)
    (hrules : ∀ x x', g'.name x' = g.name x → ∀ r, r ∈ g'.rulesOf x' ↔ r ∈ g.rulesOf x) :
    Nonempty (Embedding g g') := by
  choose map hmap using hname
  have hrule (x : g.Nonterminal) (u : g.Form) :
      g'.ruleOf (map x) (u.map (Symbol.rename map)) = g.ruleOf x u := by
    rw [ruleOf, ruleOf, Symbol.map_rename_rename, hmap, funext hmap]
  refine ⟨map, hmap, ?_, ?_, ?_⟩
  · intro x y hxy
    exact hg x y ((hmap x).symm.trans ((congrArg g'.name hxy).trans (hmap y)))
  · exact hg' _ _ (hstart.symm.trans (hmap _).symm)
  · intro x v
    rw [← List.mem_map_of_injective (ruleOf_injective hg' (map x))]
    refine (hrules x (map x) (hmap x) _).trans (List.mem_map.trans (exists_congr fun u => ?_))
    rw [← hrule, (ruleOf_injective hg' (map x)).eq_iff]

end

end Grammar

end Predictive
