import Predictive.Postfix.Grammar
import Predictive.Proofs.TableCells

/-!
# When a table can be built

A table is built from any sets if and only if no two alternatives of one nonterminal are to be used on
the same terminal (`build_exact`). It then has a cell for each production and each terminal that it is
to be used on, and lists them in order (`Table.Fits`). Otherwise the conflict is the first one there is
(`Conflict.IsFirst`): no production before the candidate meets a taken cell, the candidate meets none
at a smaller terminal, and the cell is claimed by one earlier alternative only.

Filling stops at the first cell that is taken, so what an error says is said of the table that was
filled up to there (`fill_eq_error`), whose cells are those of the productions before the candidate
(`Table.get?_fill`). Those of the candidate's nonterminal are its earlier alternatives
(`Grammar.before_iff`).
-/

namespace Predictive

section
variable {T : Type}

namespace Grammar
variable {g : Grammar T} {p q : g.Production}

/-- `q` is an alternative of the same nonterminal and comes before `p`. -/
def Production.Before (q p : g.Production) : Prop := q.left = p.left ∧ (q.index : Nat) < p.index

theorem Production.Before.ne (h : q.Before p) : q ≠ p := by
  rintro rfl
  exact Nat.lt_irrefl _ h.2

theorem increasing_productions (g : Grammar T) :
    g.productions.Pairwise fun q p => q.left < p.left ∨ q.Before p := by
  unfold productions
  rw [List.pairwise_flatMap]
  constructor
  · intro x _
    unfold productionsOf
    rw [List.pairwise_map]
    exact (List.pairwise_lt_finRange _).imp fun hij => .inr ⟨rfl, hij⟩
  · refine (List.pairwise_lt_finRange g.size).imp fun {x y} hxy q hq p hp => .inl ?_
    rw [mem_productionsOf.1 hq, mem_productionsOf.1 hp]
    exact hxy

theorem before_iff {before after : List g.Production} (h : g.productions = before ++ p :: after) :
    q.Before p ↔ q ∈ before ∧ q.left = p.left := by
  have hinc := g.increasing_productions
  rw [h, List.pairwise_append, List.pairwise_cons] at hinc
  obtain ⟨-, ⟨hafter, -⟩, hbefore⟩ := hinc
  constructor
  · intro hqp
    refine ⟨?_, hqp.1⟩
    have hq := mem_productions q
    rw [h, List.mem_append, List.mem_cons] at hq
    rcases hq with hq | rfl | hq
    · exact hq
    · exact absurd rfl hqp.ne
    · rcases hafter q hq with hlt | hpq
      · exact absurd hlt (by rw [hqp.1]; exact Fin.lt_irrefl _)
      · exact absurd hqp.2 (Nat.lt_asymm hpq.2)
  · rintro ⟨hq, hleft⟩
    rcases hbefore q hq p (List.mem_cons_self ..) with hlt | hqp
    · exact absurd hlt (by rw [hleft]; exact Fin.lt_irrefl _)
    · exact hqp

end Grammar

end

section
variable {T : Type} [Terminal T] {g : Grammar T} {F : FirstSets g} {W : FollowSets g}
  {table table' : Table g} {c : Conflict g} {p q : g.Production}

namespace Table

/-- `p` is to be used on `t`, and so is an alternative before it. -/
def Contested (F : FirstSets g) (W : FollowSets g) (p : g.Production) (t : T) : Prop :=
  p.UsedOn F W t ∧ ∃ q : g.Production, q.Before p ∧ q.UsedOn F W t

/-- The table has a cell for each production and each terminal that it is to be used on, and lists them
in order. -/
structure Fits (F : FirstSets g) (W : FollowSets g) (table : Table g) : Prop where
  get? : ∀ x t p, table.get? x t = some p ↔ p.left = x ∧ p.UsedOn F W t
  cells : ∀ c, c ∈ table.cells ↔ c.production.UsedOn F W c.lookahead
  increasing_cells : table.cells.Pairwise (Cell.compare · · = .lt)
  size : table.size = table.cells.length
  expected : ∀ x t, t ∈ table.expected x ↔ ∃ p, table.get? x t = some p
  increasing_expected : ∀ x, (table.expected x).Pairwise (compare · · = .lt)

end Table

/-- The conflict comes first in the order of productions and of terminals, and names the one earlier
alternative that claims the cell. -/
structure Conflict.IsFirst (F : FirstSets g) (W : FollowSets g) (c : Conflict g) : Prop where
  contested : Table.Contested F W c.candidate c.terminal
  first : ∃ before after, g.productions = before ++ c.candidate :: after ∧
    ∀ p ∈ before, ∀ t, ¬ Table.Contested F W p t
  least : ∀ t, Table.Contested F W c.candidate t → t = c.terminal ∨ compare c.terminal t = .lt
  existing : ∀ q : g.Production, q.Before c.candidate ∧ q.UsedOn F W c.terminal ↔ q = c.existing

namespace Table

/-! ### Tables that were built -/

theorem mem_cells {c : Cell g} :
    c ∈ table.cells ↔ table.get? c.nonterminal c.lookahead = some c.production := by
  rw [get?_eq_some_iff]
  constructor
  · intro hc
    obtain ⟨x, -, hx⟩ := List.mem_flatMap.1 hc
    have hleft := table.nonterminal_eq x c hx
    rw [hleft]
    exact hx
  · intro hc
    exact List.mem_flatMap.2 ⟨c.nonterminal, List.mem_finRange _, hc⟩

theorem mem_expected {x : g.Nonterminal} {t : T} :
    t ∈ table.expected x ↔ ∃ p, table.get? x t = some p := by
  simp only [expected, List.mem_map, get?_eq_some_iff]
  constructor
  · rintro ⟨⟨p, t⟩, hc, rfl⟩
    exact ⟨p, hc⟩
  · rintro ⟨p, hc⟩
    exact ⟨⟨p, t⟩, hc, rfl⟩

theorem fits_of_build (h : build F W = .ok table) : table.Fits F W where
  get? x t p := get?_build h
  cells c := by
    rw [mem_cells, get?_build h]
    exact and_iff_right rfl
  increasing_cells := table.increasing_cells
  size := rfl
  expected x t := mem_expected
  increasing_expected x := List.pairwise_map.2 (table.increasing x)

/-! ### Conflicts -/

theorem place_eq_error {ts : List T} (hts : ts.Pairwise (compare · · = .lt))
    (h : place p ts table = .error c) :
    c.candidate = p ∧ c.terminal ∈ ts ∧ table.get? p.left c.terminal = some c.existing ∧
      ∀ t ∈ ts, compare t c.terminal = .lt → table.get? p.left t = none := by
  induction ts generalizing table with
  | nil => cases h
  | cons a ts ih =>
    obtain ⟨ha, hts⟩ := List.pairwise_cons.1 hts
    have irrefl : compare a a ≠ .lt := by simp [Std.ReflCmp.compare_self]
    unfold place at h
    split at h
    · next existing hexisting =>
      cases h
      refine ⟨rfl, List.mem_cons_self .., hexisting, fun t ht hlt => ?_⟩
      -- `a` is the first terminal, so no other comes before it
      rcases List.mem_cons.1 ht with rfl | ht
      · exact absurd hlt irrefl
      · exact absurd (Std.TransCmp.lt_trans hlt (ha t ht)) (by simp [Std.ReflCmp.compare_self])
    · next hnone =>
      obtain ⟨hcandidate, hmem, hget, hleast⟩ := ih hts h
      refine ⟨hcandidate, List.mem_cons_of_mem a hmem, ?_, fun t ht hlt => ?_⟩
      · rcases (get?_insert (c := ⟨p, a⟩) hnone).1 hget with hget | ⟨-, -, hterminal⟩
        · exact hget
        · have hlt := ha c.terminal hmem
          rw [hterminal] at hlt
          exact absurd hlt irrefl
      · rcases List.mem_cons.1 ht with rfl | ht
        · exact hnone
        · refine Option.eq_none_iff_forall_ne_some.2 fun q hq => ?_
          have hnew := (get?_insert (c := ⟨p, a⟩) hnone).2 (.inl hq)
          rw [hleast t ht hlt] at hnew
          cases hnew

/-- A conflict is met by the candidate, in the table that the productions before it fill. -/
theorem fill_eq_error {ps : List g.Production} (h : fill F W ps table = .error c) :
    ∃ before after placed, ps = before ++ c.candidate :: after ∧
      fill F W before table = .ok placed ∧
      place c.candidate (lookaheads F W c.candidate).toList placed = .error c := by
  induction ps generalizing table with
  | nil => cases h
  | cons p ps ih =>
    unfold fill at h
    split at h
    · next conflict hconflict =>
      cases h
      obtain ⟨rfl, -⟩ := place_eq_error (lookaheads F W p).increasing hconflict
      exact ⟨[], ps, table, rfl, rfl, hconflict⟩
    · next placed hplaced =>
      obtain ⟨before, after, filled, rfl, hfill, hplace⟩ := ih h
      refine ⟨p :: before, after, filled, rfl, ?_, hplace⟩
      rw [fill, hplaced]
      exact hfill

theorem isFirst_of_build (h : build F W = .error c) : c.IsFirst F W := by
  obtain ⟨before, after, placed, hlist, hfill, hplace⟩ := fill_eq_error h
  obtain ⟨-, hmem, hexisting, hleast⟩ := place_eq_error (lookaheads F W c.candidate).increasing hplace
  have hcell : ∀ {x t q}, placed.get? x t = some q ↔ q ∈ before ∧ q.left = x ∧ q.UsedOn F W t := by
    intro x t q
    rw [get?_fill hfill, get?_empty, mem_lookaheads]
    simp
  have hearlier : ∀ {q t}, q.Before c.candidate → q.UsedOn F W t →
      placed.get? c.candidate.left t = some q := by
    intro q t hq ht
    obtain ⟨hbefore, hleft⟩ := (Grammar.before_iff hlist).1 hq
    exact hcell.2 ⟨hbefore, hleft, ht⟩
  have hclaim : c.existing.Before c.candidate ∧ c.existing.UsedOn F W c.terminal := by
    obtain ⟨hbefore, hleft, ht⟩ := hcell.1 hexisting
    exact ⟨(Grammar.before_iff hlist).2 ⟨hbefore, hleft⟩, ht⟩
  refine ⟨⟨mem_lookaheads.1 hmem, c.existing, hclaim⟩, ⟨before, after, hlist, ?_⟩, ?_,
    fun q => ⟨?_, ?_⟩⟩
  · rintro p hp t ⟨htp, q, hqp, htq⟩
    -- both would be placed, in the same cell
    obtain ⟨a, b, rfl⟩ := List.append_of_mem hp
    have hsplit : g.productions = a ++ p :: (b ++ c.candidate :: after) := by rw [hlist]; simp
    have hq : q ∈ a := ((Grammar.before_iff hsplit).1 hqp).1
    have hcellp := hcell.2 ⟨hp, rfl, htp⟩
    have hcellq := hcell.2 ⟨List.mem_append_left _ hq, hqp.1, htq⟩
    exact hqp.ne (Option.some.inj (hcellq.symm.trans hcellp))
  · rintro t ⟨ht, q, hq, htq⟩
    rcases hcompare : compare t c.terminal with _ | _ | _
    · have hnone := hleast t (mem_lookaheads.2 ht) hcompare
      rw [hearlier hq htq] at hnone
      cases hnone
    · exact .inl (Std.LawfulEqOrd.eq_of_compare hcompare)
    · exact .inr (Std.OrientedCmp.lt_of_gt hcompare)
  · rintro ⟨hq, ht⟩
    exact Option.some.inj ((hearlier hq ht).symm.trans hexisting)
  · rintro rfl
    exact hclaim

end Table

/-- From any sets, a table is built exactly if no two alternatives of a nonterminal are to be used on one
terminal. A table has the cells that the sets call for, and a conflict is the first one. -/
theorem build_exact (F : FirstSets g) (W : FollowSets g) :
    ((∃ table, Table.build F W = .ok table) ↔ ∀ p q : g.Production, p ≠ q → p.left = q.left →
      ∀ t, p.UsedOn F W t → ¬ q.UsedOn F W t) ∧
    (∀ table, Table.build F W = .ok table → table.Fits F W) ∧
    ∀ c, Table.build F W = .error c → c.IsFirst F W := by
  refine ⟨⟨?_, fun hdisjoint => ?_⟩, fun _ => Table.fits_of_build, fun _ => Table.isFirst_of_build⟩
  · rintro ⟨table, h⟩ p q hne hleft t hp hq
    have hp := (Table.get?_build h).2 ⟨rfl, hp⟩
    have hq := (Table.get?_build h).2 ⟨hleft.symm, hq⟩
    exact hne (Option.some.inj (hp.symm.trans hq))
  · cases h : Table.build F W with
    | ok table => exact ⟨table, rfl⟩
    | error c =>
      obtain ⟨ht, q, hq, htq⟩ := (Table.isFirst_of_build h).contested
      exact absurd ht (hdisjoint q c.candidate hq.ne hq.1 _ htq)

end

/-! ### A sign in front of a plus -/

namespace Signed
open Postfix (Kind)

/-- The grammar of `Sum -> Sign PLUS`, where `Sign` is a number, empty, or a plus and a number. -/
def grammar : Grammar Kind where
  size := 2
  names := #v["Sum", "Sign"]
  alternatives := #v[
    [[.nonterminal 1, .terminal .plus]],
    [[.terminal .number], [.epsilon], [.terminal .plus, .terminal .number]]]
  start := 0

def blank : grammar.Production := ⟨(1 : Fin 2), ⟨1, by decide⟩⟩

def signed : grammar.Production := ⟨(1 : Fin 2), ⟨2, by decide⟩⟩

end Signed

/-- A plus can follow the empty sign and can begin another, so the sets of the grammar give a conflict;
from sets in which only the end marker follows anything, there is a table. -/
theorem build_exact_signed :
    (Table.build Signed.grammar.first.value (Grammar.follow Signed.grammar.first.value).value =
        .error ⟨Signed.blank, Signed.signed, .plus⟩ ∧
      ∀ q : Signed.grammar.Production, q.Before Signed.signed ∧ q.UsedOn
        Signed.grammar.first.value (Grammar.follow Signed.grammar.first.value).value .plus ↔
          q = Signed.blank) ∧
    ∃ table, Table.build Signed.grammar.first.value (FollowSets.initial Signed.grammar) = .ok table ∧
      table.get? Signed.blank.left .plus = some Signed.signed := by
  have hconflict : Table.build Signed.grammar.first.value
      (Grammar.follow Signed.grammar.first.value).value =
        .error ⟨Signed.blank, Signed.signed, .plus⟩ := rfl
  have hfirst := (build_exact _ _).2.2 _ hconflict
  have htable : (Table.build Signed.grammar.first.value
      (FollowSets.initial Signed.grammar)).toOption.isSome := by decide +kernel
  have hok := Postfix.eq_ok_get htable
  have hfits := (build_exact _ _).2.1 _ hok
  exact ⟨⟨hconflict, hfirst.existing⟩, _, hok, (hfits.get? _ _ _).2 ⟨rfl, Table.mem_lookaheads.1 (by decide +kernel)⟩⟩

end Predictive
