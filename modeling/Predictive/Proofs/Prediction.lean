import Predictive.Proofs.FollowExact
import Predictive.Proofs.TableCells

/-!
# What a table predicts

`Table.Predicts W`: the table has a production for a nonterminal and a terminal exactly if the
production's right-hand side can begin with the terminal, or can be empty where the terminal follows the
nonterminal by `W`; and `W` lets everything follow that stands, or is passed on, behind a nonterminal in
a right-hand side. Tables of grammars are so (`predicts_of_ofGrammar`). Nothing else about the solvers
is used where machines are reasoned about.

Such a `W` covers every stack of the machine (`FollowSets.Closed.covers_replace`), and in front of a
covered string the cell is the only way: the production that a derivation uses for the nonterminal in
front is the one in the table for the terminal that comes next (`Predicts.get?_of_derives`).
-/

namespace Predictive
variable {T : Type} [Terminal T] {g : Grammar T}

namespace Table
variable {table : Table g} {W : FollowSets g} {x : g.Nonterminal} {t : T} {p : g.Production}
  {u : g.Form}

/-- The table goes by what can begin and by what can follow, and FOLLOW leaves nothing out. -/
structure Predicts (table : Table g) (W : FollowSets g) : Prop where
  cell : ∀ x t p, table.get? x t = some p ↔
    p.left = x ∧ (g.Begins t p.right ∨ g.Derives p.right [] ∧ t ∈ W.of x)
  start : Terminal.endMarker ∈ W.of g.start
  inside : ∀ (p : g.Production) a x b, p.right = a ++ .nonterminal x :: b →
    ∀ t, g.Begins t b → t ∈ W.of x
  ending : ∀ (p : g.Production) a x b, p.right = a ++ .nonterminal x :: b → g.Derives b [] →
    ∀ t ∈ W.of p.left, t ∈ W.of x

theorem predicts_of_ofGrammar (h : ofGrammar g = .ok table) :
    table.Predicts (Grammar.follow g.first.value).value := by
  have hclosed := Grammar.closed_follow g
  refine ⟨fun x t p => ?_, hclosed.start, hclosed.inside, hclosed.ending⟩
  rw [get?_build h]
  refine and_congr_right fun hx => ?_
  rw [Grammar.Production.UsedOn, Grammar.mem_first_iff, Grammar.nullable_first_iff, hx]

namespace Predicts

theorem closed (h : table.Predicts W) : W.Closed := ⟨h.start, h.inside, h.ending⟩

theorem get?_of_begins (h : table.Predicts W) (hp : g.Begins t p.right) :
    table.get? p.left t = some p := (h.cell _ _ _).2 ⟨rfl, .inl hp⟩

theorem get?_of_follow (h : table.Predicts W) (hp : g.Derives p.right []) (ht : t ∈ W.of p.left) :
    table.get? p.left t = some p := (h.cell _ _ _).2 ⟨rfl, .inr ⟨hp, ht⟩⟩

theorem get?_of_derives (h : table.Predicts W) (hc : W.Covers (.nonterminal p.left :: u))
    {v : g.Form} (hp : g.Derives (p.right ++ u) (.terminal t :: v)) :
    table.get? p.left t = some p := by
  rcases (Grammar.begins_iff_derives.2 ⟨v, hp⟩).append_inv with hb | ⟨hnil, hb⟩
  · exact h.get?_of_begins hb
  · exact h.get?_of_follow hnil (hc.1 t hb)

/-- A nonterminal in front of what is to begin with `t` has a cell for `t`, and its production leads
there. -/
theorem cell_of_derives (h : table.Predicts W) (hc : W.Covers (.nonterminal x :: u)) {v : g.Form}
    (hx : g.Derives (.nonterminal x :: u) (.terminal t :: v)) :
    ∃ p, p.left = x ∧ table.get? x t = some p ∧ g.Derives (p.right ++ u) (.terminal t :: v) := by
  obtain ⟨a, b, hab, ha, hb⟩ := Grammar.Derives.append_inv (u := [.nonterminal x]) hx
  rcases ha.nonterminal_inv with rfl | ⟨p, rfl, hp⟩
  · simp at hab
  · have hpu : g.Derives (p.right ++ u) (.terminal t :: v) := by rw [hab]; exact hp.append hb
    exact ⟨p, rfl, h.get?_of_derives hc hpu, hpu⟩

/-- A nonterminal in front of the end marker has the production that a leftmost derivation uses first,
for the terminal that the derived string and the end marker begin with. -/
theorem get?_of_leftmost (h : table.Predicts W)
    (hc : W.Covers (.nonterminal p.left :: (u ++ [.terminal Terminal.endMarker])))
    {ps : List g.Production} {w v : List T} (hu : g.Leftmost ps (p.right ++ u) w)
    (hw : w ++ [Terminal.endMarker] = t :: v) : table.get? p.left t = some p := by
  have hall := hu.derives.append (.refl [.terminal Terminal.endMarker])
  have hword : w.map .terminal ++ [.terminal Terminal.endMarker] =
      (.terminal t :: v.map .terminal : g.Form) := by
    rw [← List.map_cons, ← hw, List.map_append]
    rfl
  rw [List.append_assoc, hword] at hall
  exact h.get?_of_derives hc hall

end Predicts

end Table

end Predictive
