import Predictive.Postfix.Grammar
import Predictive.Proofs.Prediction

/-!
# A table certifies that the grammar is unambiguous

If a grammar has a table, a string of terminals has one leftmost derivation at most, so an ambiguous
grammar is refused with a conflict (`unambiguous_of_table`).

Two leftmost derivations of a string agree up to the first nonterminal that they replace by different
alternatives. What is then in front of each is to begin with the same terminal, the next one of the
string or the end marker behind it, and the table has one production for the nonterminal and that
terminal (`Predicts.leftmost_unique`). The end marker is there for alternatives that vanish at the end
of the string: both would claim the cells of all that follows the nonterminal, and something does.
-/

namespace Predictive

section
variable {T : Type} {g : Grammar T}

namespace Grammar

/-- No string of terminals has two leftmost derivations from the start symbol. -/
def Unambiguous (g : Grammar T) : Prop :=
  ∀ ps qs w, g.Leftmost ps [.nonterminal g.start] w → g.Leftmost qs [.nonterminal g.start] w → ps = qs

theorem Leftmost.nonterminal_inv {x : g.Nonterminal} {u : g.Form} {w : List T}
    {ps : List g.Production} (h : g.Leftmost ps (.nonterminal x :: u) w) :
    ∃ q qs, q.left = x ∧ ps = q :: qs ∧ g.Leftmost qs (q.right ++ u) w := by
  generalize hs : Symbol.nonterminal x :: u = s at h
  cases h with
  | expand q hq =>
    cases hs
    exact ⟨q, _, rfl, rfl, hq⟩
  | _ => cases hs

end Grammar

variable [Terminal T] {table : Table g} {W : FollowSets g}

/-- A string that is covered in front of the end marker has one leftmost derivation at most. -/
theorem Table.Predicts.leftmost_unique (h : table.Predicts W) {u : g.Form} {w : List T}
    {ps qs : List g.Production} (hp : g.Leftmost ps u w) (hq : g.Leftmost qs u w)
    (hc : W.Covers (u ++ [.terminal Terminal.endMarker])) : ps = qs := by
  induction hp generalizing qs with
  | nil =>
    cases hq
    rfl
  | terminal t _ ih =>
    cases hq with
    | terminal _ hq => exact ih hq hc.tail
  | epsilon _ ih =>
    cases hq with
    | epsilon hq => exact ih hq hc.tail
  | @expand ps u w p hp ih =>
    obtain ⟨q, qs, hleft, rfl, hrest⟩ := hq.nonterminal_inv
    obtain ⟨t, v, hw⟩ : ∃ t v, w ++ [Terminal.endMarker] = t :: v :=
      List.exists_cons_of_ne_nil (by simp)
    have hcellp := h.get?_of_leftmost hc hp hw
    have hcellq := h.get?_of_leftmost (p := q) (by rw [hleft]; exact hc) hrest hw
    -- the cell has one production
    rw [hleft] at hcellq
    obtain rfl := Option.some.inj (hcellp.symm.trans hcellq)
    have hright : W.Covers (p.right ++ u ++ [.terminal Terminal.endMarker]) := by
      rw [List.append_assoc]
      exact h.closed.covers_replace hc
    rw [ih hrest hright]

/-- A grammar that has a table is unambiguous, and one that is ambiguous is refused. -/
theorem unambiguous_of_table (g : Grammar T) :
    ((∃ table, Table.ofGrammar g = .ok table) → g.Unambiguous) ∧
    (¬ g.Unambiguous → ∃ c, Table.ofGrammar g = .error c) := by
  have hunique : ∀ table, Table.ofGrammar g = .ok table → g.Unambiguous := by
    intro table h ps qs w hp hq
    have hpred := Table.predicts_of_ofGrammar h
    exact hpred.leftmost_unique hp hq hpred.closed.covers_start
  refine ⟨fun ⟨table, h⟩ => hunique table h, fun hambiguous => ?_⟩
  cases h : Table.ofGrammar g with
  | ok table => exact absurd (hunique table h) hambiguous
  | error c => exact ⟨c, rfl⟩

end

/-! ### Two ways to be empty -/

namespace Vacuous
open Postfix (Kind)

/-- The grammar of `Line -> Option )`, where `Option` is `Nothing` or `Void`, which are both empty. -/
def grammar : Grammar Kind where
  size := 4
  names := #v["Line", "Option", "Nothing", "Void"]
  alternatives := #v[
    [[.nonterminal 1, .terminal .closeParen]],
    [[.nonterminal 2], [.nonterminal 3]],
    [[.epsilon]],
    [[.epsilon]]]
  start := 0

def line : grammar.Production := ⟨(0 : Fin 4), ⟨0, by decide⟩⟩

def isNothing : grammar.Production := ⟨(1 : Fin 4), ⟨0, by decide⟩⟩

def isVoid : grammar.Production := ⟨(1 : Fin 4), ⟨1, by decide⟩⟩

def nothing : grammar.Production := ⟨(2 : Fin 4), ⟨0, by decide⟩⟩

def void : grammar.Production := ⟨(3 : Fin 4), ⟨0, by decide⟩⟩

theorem not_unambiguous : ¬ grammar.Unambiguous := by
  intro h
  have hnothing : grammar.Leftmost [line, isNothing, nothing] [.nonterminal grammar.start]
      [.closeParen] := .expand line (.expand isNothing (.expand nothing (.epsilon (.terminal _ .nil))))
  have hvoid : grammar.Leftmost [line, isVoid, void] [.nonterminal grammar.start]
      [.closeParen] := .expand line (.expand isVoid (.expand void (.epsilon (.terminal _ .nil))))
  exact absurd (h _ _ _ hnothing hvoid) (by decide)

end Vacuous

/-- The grammar of the postfix language is unambiguous, and one with two ways to be empty is refused. -/
theorem unambiguous_of_table_postfix :
    Postfix.grammar.Unambiguous ∧ ∃ c, Table.ofGrammar Vacuous.grammar = .error c :=
  ⟨(unambiguous_of_table Postfix.grammar).1 ⟨_, Postfix.ofGrammar_eq_ok⟩,
    (unambiguous_of_table Vacuous.grammar).2 Vacuous.not_unambiguous⟩

end Predictive
