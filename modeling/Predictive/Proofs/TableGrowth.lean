import Mathlib.Logic.Relation
import Predictive.Proofs.Confluence
import Predictive.Proofs.TableConflicts

/-!
# Larger sets make larger tables

A production is to be used on more terminals by larger sets (`Production.UsedOn.mono`): more of them begin
its right-hand side, more can follow, and more right-hand sides can be empty, which lets what follows count.
So where a table is built from larger sets, no two alternatives meet by the smaller ones, and the table of
these is a part of it (`build_mono`). Along the passes of the solvers, whose sets grow, tables therefore only
gain cells, and a conflict stays.
-/

namespace Predictive

section
variable {T : Type} [Terminal T] {g : Grammar T} {F F' : FirstSets g} {W W' : FollowSets g}

theorem Grammar.Production.UsedOn.mono {p : g.Production} {t : T} (hF : F.Subset F') (hW : W.Subset W')
    (h : p.UsedOn F W t) : p.UsedOn F' W' t := by
  have hright := hF.ofForm p.right
  exact h.imp (hright.1 t) fun ⟨hn, ht⟩ => ⟨hright.2 hn, hW p.left t ht⟩

/-- The terminal of a conflict is claimed twice by larger sets, too, so no table has it in a cell. -/
theorem Conflict.IsFirst.not_build {c : Conflict g} (hc : c.IsFirst F W) (hF : F.Subset F')
    (hW : W.Subset W') (table : Table g) : Table.build F' W' ≠ .ok table := by
  obtain ⟨hcandidate, q, hq, hexisting⟩ := hc.contested
  intro h
  have hcell := (Table.get?_build h).2 ⟨rfl, hcandidate.mono hF hW⟩
  have hcell' := (Table.get?_build h).2 ⟨hq.1, hexisting.mono hF hW⟩
  exact hq.ne (Option.some.inj (hcell'.symm.trans hcell))

namespace Table
variable {table table' : Table g}

theorem cells_subset (hF : F.Subset F') (hW : W.Subset W') (h : build F W = .ok table)
    (h' : build F' W' = .ok table') : table.cells ⊆ table'.cells := by
  intro c hc
  have hused := (get?_build h).1 (mem_cells.1 hc)
  exact mem_cells.2 ((get?_build h').2 ⟨rfl, hused.2.mono hF hW⟩)

theorem exists_part (hF : F.Subset F') (hW : W.Subset W') (h' : build F' W' = .ok table') :
    ∃ table, build F W = .ok table ∧ table.cells ⊆ table'.cells := by
  cases h : build F W with
  | ok table => exact ⟨table, rfl, cells_subset hF hW h h'⟩
  | error c => exact absurd h' ((isFirst_of_build h).not_build hF hW table')

end Table

/-- One pass of a solver: over the FIRST sets, or by these over the FOLLOW sets. -/
inductive SolverPass (g : Grammar T) : FirstSets g × FollowSets g → FirstSets g × FollowSets g → Prop where
  | first (F : FirstSets g) (W : FollowSets g) : SolverPass g (F, W) (F.grow.1, W)
  | follow (F : FirstSets g) (W : FollowSets g) : SolverPass g (F, W) (F, (FollowSets.grow F W).1)

namespace SolverPass
variable {s s' : FirstSets g × FollowSets g}

theorem subset (h : SolverPass g s s') : s.1.Subset s'.1 ∧ s.2.Subset s'.2 := by
  cases h with
  | first F W => exact ⟨(FirstSets.increasing g).le_sweep F, (FollowSets.increasing F).refl W⟩
  | follow F W => exact ⟨(FirstSets.increasing g).refl F, (FollowSets.increasing F).le_sweep W⟩

theorem subset_of_many (h : Relation.ReflTransGen (SolverPass g) s s') :
    s.1.Subset s'.1 ∧ s.2.Subset s'.2 := by
  induction h with
  | refl => exact ⟨(FirstSets.increasing g).refl s.1, (FollowSets.increasing s.1).refl s.2⟩
  | tail _ hstep ih =>
    have hstep := hstep.subset
    exact ⟨(FirstSets.increasing g).trans _ _ _ ih.1 hstep.1,
      (FollowSets.increasing s.1).trans _ _ _ ih.2 hstep.2⟩

end SolverPass

/-- If there is a table for larger sets, there is one for smaller sets, and each of its cells is a cell of
the other with the same production. Passes of the solvers, in any order, make the sets larger, so a table
gains cells by them, and where there is a conflict, there is one after all of them. -/
theorem build_mono (g : Grammar T) :
    (∀ (F F' : FirstSets g) (W W' : FollowSets g), F.Subset F' → W.Subset W' →
      ∀ table', Table.build F' W' = .ok table' →
        ∃ table, Table.build F W = .ok table ∧ table.cells ⊆ table'.cells) ∧
    ∀ s s', Relation.ReflTransGen (SolverPass g) s s' →
      (∀ table table', Table.build s.1 s.2 = .ok table → Table.build s'.1 s'.2 = .ok table' →
        table.cells ⊆ table'.cells) ∧
      ∀ c, Table.build s.1 s.2 = .error c → ∃ c', Table.build s'.1 s'.2 = .error c' := by
  refine ⟨fun F F' W W' hF hW table' => Table.exists_part hF hW, fun s s' h => ?_⟩
  obtain ⟨hF, hW⟩ := SolverPass.subset_of_many h
  refine ⟨fun table table' => Table.cells_subset hF hW, fun c hc => ?_⟩
  cases h' : Table.build s'.1 s'.2 with
  | ok table' => exact absurd h' ((Table.isFirst_of_build hc).not_build hF hW table')
  | error c' => exact ⟨c', rfl⟩

end

namespace Signed

/-- What one pass makes of the initial FOLLOW sets. -/
def follow : FollowSets grammar := (FollowSets.grow grammar.first.value (FollowSets.initial grammar)).1

end Signed

/-- A list in parentheses has a table, and so it has one by a part of its sets. The sign in front of a plus
is in conflict after one pass over the FOLLOW sets, and after another. -/
theorem build_mono_listing :
    (Listing.minusOnly.Subset Listing.first ∧ Listing.itemsOnly.Subset Listing.follow ∧
      ∃ table table', Table.build Listing.first Listing.follow = .ok table' ∧
        Table.build Listing.minusOnly Listing.itemsOnly = .ok table ∧ table.cells ⊆ table'.cells) ∧
    Table.build Signed.grammar.first.value Signed.follow =
      .error ⟨Signed.blank, Signed.signed, .plus⟩ ∧
    ∃ c, Table.build Signed.grammar.first.value
      (FollowSets.grow Signed.grammar.first.value Signed.follow).1 = .error c := by
  have hF : Listing.minusOnly.Subset Listing.first := by decide +kernel
  have hW : Listing.itemsOnly.Subset Listing.follow := by decide +kernel
  have htable : (Table.build Listing.first Listing.follow).toOption.isSome := by decide +kernel
  have hok := Postfix.eq_ok_get htable
  obtain ⟨table, hpart, hcells⟩ := (build_mono Listing.grammar).1 _ _ _ _ hF hW _ hok
  have hconflict : Table.build Signed.grammar.first.value Signed.follow =
      .error ⟨Signed.blank, Signed.signed, .plus⟩ := rfl
  have hpass := Relation.ReflTransGen.single (SolverPass.follow Signed.grammar.first.value Signed.follow)
  exact ⟨⟨hF, hW, table, _, hok, hpart, hcells⟩, hconflict,
    ((build_mono Signed.grammar).2 _ _ hpass).2 _ hconflict⟩

end Predictive
