import Predictive.Postfix.Kind
import Predictive.Proofs.Prediction

/-!
# Left recursion has no table

A grammar whose nonterminals are all reachable and derive some string of terminals has no table if one
of them derives a string that begins with itself, in however many steps and behind however much that
can be empty (`conflict_of_leftRecursive`).

`Approaches g t ps u` says that using `ps` in turn on the leftmost nonterminal brings `t` to the front of
`u`. By a table there is one way to do so (`Predicts.approaches_unique`), since each production has to
lie in the cell for `t`. Going once round the recursion first is another, longer way. It has to lead to
the same terminal: if what the recursion goes on with can begin with one, the nonterminal itself brings
it to the front, and if all of it is empty, what stands behind the nonterminal does.
-/

namespace Predictive

section
variable {T : Type} {g : Grammar T}

namespace Grammar

/-- Some string of terminals is derived from `x`. -/
def IsProductive (g : Grammar T) (x : g.Nonterminal) : Prop :=
  ∃ w : List T, g.Derives [.nonterminal x] (w.map .terminal)

/-- In one step or more, `x` derives a string that begins with `x`. -/
def IsLeftRecursive (g : Grammar T) (x : g.Nonterminal) : Prop :=
  ∃ u v, g.Yields [.nonterminal x] u ∧ g.Derives u (.nonterminal x :: v)

theorem derives_word_of_mem {u : g.Form} (h : ∀ x, .nonterminal x ∈ u → g.IsProductive x) :
    ∃ w : List T, g.Derives u (w.map .terminal) := by
  induction u with
  | nil => exact ⟨[], .refl []⟩
  | cons s u ih =>
    obtain ⟨w, hw⟩ := ih fun x hx => h x (List.mem_cons_of_mem _ hx)
    cases s with
    | terminal t => exact ⟨t :: w, (Derives.refl [.terminal t]).append hw⟩
    | epsilon => exact ⟨w, derives_drop hw⟩
    | nonterminal x =>
      obtain ⟨a, ha⟩ := h x (List.mem_cons_self ..)
      refine ⟨a ++ w, ?_⟩
      rw [List.map_append]
      exact ha.append hw

theorem derives_word (h : ∀ x, g.IsProductive x) (u : g.Form) :
    ∃ w : List T, g.Derives u (w.map .terminal) :=
  derives_word_of_mem fun x _ => h x

/-! ### Bringing a terminal to the front -/

/-- The productions of leftmost steps that bring `t` to the front of a string. -/
inductive Approaches (g : Grammar T) (t : T) : List g.Production → g.Form → Prop where
  | front (u : g.Form) : Approaches g t [] (.terminal t :: u)
  | epsilon {ps : List g.Production} {u : g.Form} : Approaches g t ps u →
    Approaches g t ps (.epsilon :: u)
  | expand {ps : List g.Production} {u : g.Form} (p : g.Production) :
    Approaches g t ps (p.right ++ u) → Approaches g t (p :: ps) (.nonterminal p.left :: u)

namespace Approaches
variable {t : T} {ps qs : List g.Production} {u v : g.Form}

theorem derives (h : g.Approaches t ps u) : ∃ v, g.Derives u (.terminal t :: v) := by
  induction h with
  | front u => exact ⟨u, .refl _⟩
  | epsilon _ ih =>
    obtain ⟨v, hv⟩ := ih
    exact ⟨v, derives_drop hv⟩
  | expand p _ ih =>
    obtain ⟨v, hv⟩ := ih
    exact ⟨v, derives_replace p hv⟩

theorem append_right (h : g.Approaches t ps u) (v : g.Form) : g.Approaches t ps (u ++ v) := by
  induction h with
  | front u => exact .front (u ++ v)
  | epsilon _ ih => exact .epsilon ih
  | expand p _ ih =>
    rw [List.append_assoc] at ih
    exact .expand p ih

/-- What stands in front is used up first. -/
theorem skip {w : List T} (hu : g.Leftmost ps u w) (hw : w = []) (hv : g.Approaches t qs v) :
    g.Approaches t (ps ++ qs) (u ++ v) := by
  induction hu with
  | nil => exact hv
  | terminal t _ => cases hw
  | epsilon _ ih => exact .epsilon (ih hw)
  | expand p _ ih =>
    have hright := ih hw
    rw [List.append_assoc] at hright
    exact .expand p hright

theorem append_inv (h : g.Approaches t ps (u ++ v)) : g.Approaches t ps u ∨
    ∃ ps₁ ps₂, ps = ps₁ ++ ps₂ ∧ g.Leftmost ps₁ u [] ∧ g.Approaches t ps₂ v := by
  generalize hs : u ++ v = s at h
  induction h generalizing u with
  | front s =>
    rcases List.append_eq_cons_iff.1 hs with ⟨rfl, rfl⟩ | ⟨u, rfl, rfl⟩
    · exact .inr ⟨[], [], rfl, .nil, .front s⟩
    · exact .inl (.front u)
  | @epsilon ps s h ih =>
    rcases List.append_eq_cons_iff.1 hs with ⟨rfl, rfl⟩ | ⟨u, rfl, rfl⟩
    · exact .inr ⟨[], ps, rfl, .nil, .epsilon h⟩
    · rcases ih rfl with hu | ⟨ps₁, ps₂, rfl, hu, hv⟩
      · exact .inl (.epsilon hu)
      · exact .inr ⟨ps₁, ps₂, rfl, .epsilon hu, hv⟩
  | @expand ps s p h ih =>
    rcases List.append_eq_cons_iff.1 hs with ⟨rfl, rfl⟩ | ⟨u, rfl, rfl⟩
    · exact .inr ⟨[], p :: ps, rfl, .nil, .expand p h⟩
    · rcases ih (u := p.right ++ u) (by simp) with hu | ⟨ps₁, ps₂, rfl, hu, hv⟩
      · exact .inl (.expand p hu)
      · exact .inr ⟨p :: ps₁, ps₂, rfl, .expand p hu, hv⟩

theorem of_leftmost {w a : List T} (h : g.Leftmost ps u w) (hw : w = t :: a) :
    ∃ qs, g.Approaches t qs u := by
  induction h with
  | nil => cases hw
  | terminal t _ =>
    cases hw
    exact ⟨[], .front _⟩
  | epsilon _ ih =>
    obtain ⟨qs, hqs⟩ := ih hw
    exact ⟨qs, .epsilon hqs⟩
  | expand p _ ih =>
    obtain ⟨qs, hqs⟩ := ih hw
    exact ⟨p :: qs, .expand p hqs⟩

theorem of_derives {a : List T} (h : g.Derives u (.terminal t :: a.map .terminal)) :
    ∃ qs, g.Approaches t qs u := by
  obtain ⟨ps, hps⟩ := Derives.leftmost (w := t :: a) h
  exact of_leftmost hps rfl

/-- One step more in front of an approach does not make it shorter. -/
theorem yields (h : g.Yields u v) (hv : g.Approaches t ps v) :
    ∃ qs, g.Approaches t qs u ∧ ps.length ≤ qs.length := by
  cases h with
  | replace p a b =>
    -- the terminal is in front already, or the step comes after what `a` takes
    rw [List.append_assoc] at hv
    rcases hv.append_inv with ha | ⟨ps₁, ps₂, rfl, ha, hb⟩
    · exact ⟨ps, ha.append_right _, Nat.le_refl _⟩
    · exact ⟨ps₁ ++ p :: ps₂, .skip ha rfl (.expand p hb), by simp⟩
  | drop a b =>
    rcases hv.append_inv with ha | ⟨ps₁, ps₂, rfl, ha, hb⟩
    · exact ⟨ps, ha.append_right _, Nat.le_refl _⟩
    · exact ⟨ps₁ ++ ps₂, .skip ha rfl (.epsilon hb), Nat.le_refl _⟩

theorem of_derives_append {b : g.Form} (h : g.Derives u v) (hv : g.Approaches t ps (v ++ b)) :
    ∃ qs, g.Approaches t qs (u ++ b) ∧ ps.length ≤ qs.length := by
  induction h generalizing ps with
  | refl => exact ⟨ps, hv, Nat.le_refl _⟩
  | head step _ ih =>
    obtain ⟨qs, hqs, hle⟩ := ih hv
    have hstep := step.context [] b
    obtain ⟨rs, hrs, hle'⟩ := yields hstep hqs
    exact ⟨rs, hrs, Nat.le_trans hle hle'⟩

end Approaches

/-- Once round a recursion is a longer way. -/
theorem IsLeftRecursive.approaches_longer {x : g.Nonterminal} {u v b : g.Form} {t : T}
    {ps : List g.Production} (hstep : g.Yields [.nonterminal x] u)
    (hloop : g.Derives u (.nonterminal x :: v))
    (h : g.Approaches t ps (.nonterminal x :: (v ++ b))) :
    ∃ qs, g.Approaches t qs (.nonterminal x :: b) ∧ ps.length < qs.length := by
  rcases hstep.singleton_inv with ⟨p, hp, rfl⟩ | ⟨hx, -⟩
  · cases hp
    obtain ⟨qs, hqs, hle⟩ := Approaches.of_derives_append (b := b) hloop h
    exact ⟨p :: qs, .expand p hqs, Nat.lt_succ_of_le hle⟩
  · cases hx

/-- A nonterminal that derives no terminal goes on behind itself with what is empty. -/
theorem IsLeftRecursive.derives_nil {x : g.Nonterminal} {u v : g.Form}
    (hword : ∀ x, g.IsProductive x) (hstep : g.Yields [.nonterminal x] u)
    (hloop : g.Derives u (.nonterminal x :: v))
    (hempty : ∀ w : List T, g.Derives [.nonterminal x] (w.map .terminal) → w = []) :
    g.Derives [.nonterminal x] [] ∧ g.Derives v [] := by
  obtain ⟨w, hw⟩ := hword x
  obtain rfl := hempty w hw
  obtain ⟨a, ha⟩ := derives_word hword v
  have hround : g.Derives [.nonterminal x] (a.map .terminal) :=
    .head hstep (hloop.trans (hw.append ha))
  obtain rfl := hempty a hround
  exact ⟨hw, ha⟩

end Grammar

variable [Terminal T] {table : Table g} {W : FollowSets g}

/-- What stands behind a reachable nonterminal begins with a terminal, the end marker if nothing else. -/
theorem FollowSets.Closed.approaches_behind (hW : W.Closed) (hword : ∀ x, g.IsProductive x)
    {x : g.Nonterminal} (hx : g.IsReachable x) :
    ∃ b t ps, W.Covers (.nonterminal x :: b) ∧ g.Approaches t ps b := by
  obtain ⟨a, b, hab⟩ := hx
  have hstart := hab.append (.refl [.terminal Terminal.endMarker])
  have hcover := hW.covers_derives hstart hW.covers_start
  rw [List.append_assoc, List.cons_append] at hcover
  obtain ⟨w, hw⟩ := Grammar.derives_word hword b
  have hbehind := hw.append (.refl [.terminal Terminal.endMarker])
  obtain ⟨t, v, htv⟩ : ∃ t v, w ++ [Terminal.endMarker] = t :: v :=
    List.exists_cons_of_ne_nil (by simp)
  have hform : w.map .terminal ++ [.terminal Terminal.endMarker] =
      (.terminal t :: v.map .terminal : g.Form) := by
    rw [← List.map_cons, ← htv, List.map_append]
    rfl
  rw [hform] at hbehind
  obtain ⟨ps, hps⟩ := Grammar.Approaches.of_derives hbehind
  exact ⟨b ++ [.terminal Terminal.endMarker], t, ps, hcover.of_append, hps⟩

namespace Table.Predicts
variable {x : g.Nonterminal} {u v b : g.Form} {t : T} {ps qs : List g.Production}

/-- A terminal is brought to the front of a covered string in one way at most. -/
theorem approaches_unique (h : table.Predicts W) (hp : g.Approaches t ps u)
    (hq : g.Approaches t qs u) (hc : W.Covers u) : ps = qs := by
  induction hp generalizing qs with
  | front u =>
    cases hq
    rfl
  | epsilon _ ih =>
    cases hq with
    | epsilon hq => exact ih hq hc.tail
  | @expand ps u p hp ih =>
    generalize hs : Symbol.nonterminal p.left :: u = s at hq
    cases hq with
    | front => cases hs
    | epsilon => cases hs
    | @expand qs v q hq =>
      obtain ⟨hleft, rfl⟩ : p.left = q.left ∧ u = v := by simpa using hs
      obtain ⟨a, ha⟩ := hp.derives
      obtain ⟨b, hb⟩ := hq.derives
      have hcellp := h.get?_of_derives hc ha
      have hcellq := h.get?_of_derives (hleft ▸ hc) hb
      -- the cell has one production
      rw [← hleft] at hcellq
      obtain rfl := Option.some.inj (hcellp.symm.trans hcellq)
      rw [ih hq (h.closed.covers_replace hc)]

/-- By a table, going round the recursion first would have to make the way shorter. -/
theorem length_lt_of_round (h : table.Predicts W) (hstep : g.Yields [.nonterminal x] u)
    (hloop : g.Derives u (.nonterminal x :: v)) (hc : W.Covers (.nonterminal x :: b))
    (hp : g.Approaches t ps (.nonterminal x :: b))
    (hq : g.Approaches t qs (.nonterminal x :: (v ++ b))) : qs.length < ps.length := by
  obtain ⟨rs, hrs, hlt⟩ := Grammar.IsLeftRecursive.approaches_longer hstep hloop hq
  obtain rfl := h.approaches_unique hp hrs hc
  exact hlt

theorem not_isLeftRecursive (h : table.Predicts W) (hword : ∀ x, g.IsProductive x)
    (hx : g.IsReachable x) : ¬ g.IsLeftRecursive x := by
  rintro ⟨u, v, hstep, hloop⟩
  by_cases hempty : ∀ w : List T, g.Derives [.nonterminal x] (w.map .terminal) → w = []
  · -- all of the recursion is empty, so what comes to the front stands behind it
    obtain ⟨hnil, hv⟩ := Grammar.IsLeftRecursive.derives_nil hword hstep hloop hempty
    obtain ⟨b, t, rs, hc, hb⟩ := h.closed.approaches_behind hword hx
    obtain ⟨ps, hps⟩ := Grammar.Derives.leftmost (w := []) hnil
    obtain ⟨qs, hqs⟩ := Grammar.Derives.leftmost (w := []) hv
    have hfirst := Grammar.Approaches.skip hps rfl hb
    have hround := Grammar.Approaches.skip hps rfl (Grammar.Approaches.skip hqs rfl hb)
    have hlt := h.length_lt_of_round hstep hloop hc hfirst hround
    simp only [List.length_append] at hlt
    omega
  · obtain ⟨w, hw, hne⟩ : ∃ w : List T, g.Derives [.nonterminal x] (w.map .terminal) ∧ w ≠ [] := by
      simpa using hempty
    -- the same way brings the terminal to the front of `x` alone and of what the round leads to
    obtain ⟨t, a, rfl⟩ := List.exists_cons_of_ne_nil hne
    obtain ⟨ps, hps⟩ := Grammar.Approaches.of_derives hw
    have hround := hps.append_right (v ++ [])
    exact Nat.lt_irrefl _ (h.length_lt_of_round hstep hloop (.singleton W x) hps hround)

end Table.Predicts

/-- A grammar of reachable nonterminals that derive strings of terminals is refused with a conflict if
one of them derives, in one step or more, a string that begins with itself. -/
theorem conflict_of_leftRecursive (hreach : ∀ x, g.IsReachable x) (hword : ∀ x, g.IsProductive x)
    {x : g.Nonterminal} (hx : g.IsLeftRecursive x) : ∃ c, Table.ofGrammar g = .error c := by
  cases h : Table.ofGrammar g with
  | error c => exact ⟨c, rfl⟩
  | ok table =>
    have hpred := Table.predicts_of_ofGrammar h
    exact absurd hx (hpred.not_isLeftRecursive hword (hreach x))

end

/-! ### A recursion that is empty -/

namespace Hollow
open Postfix (Kind)

/-- The grammar of `Line -> ( Gap )`, where `Gap` is `Blank Filler` or empty, `Filler` is `Gap Void`, and
`Blank` and `Void` are empty. -/
def grammar : Grammar Kind where
  size := 5
  names := #v["Line", "Gap", "Filler", "Blank", "Void"]
  alternatives := #v[
    [[.terminal .openParen, .nonterminal 1, .terminal .closeParen]],
    [[.nonterminal 3, .nonterminal 2], [.epsilon]],
    [[.nonterminal 1, .nonterminal 4]],
    [[.epsilon]],
    [[.epsilon]]]
  start := 0

def line : grammar.Production := ⟨(0 : Fin 5), ⟨0, by decide⟩⟩

def filled : grammar.Production := ⟨(1 : Fin 5), ⟨0, by decide⟩⟩

def unfilled : grammar.Production := ⟨(1 : Fin 5), ⟨1, by decide⟩⟩

def filler : grammar.Production := ⟨(2 : Fin 5), ⟨0, by decide⟩⟩

def blank : grammar.Production := ⟨(3 : Fin 5), ⟨0, by decide⟩⟩

def void : grammar.Production := ⟨(4 : Fin 5), ⟨0, by decide⟩⟩

theorem gap_derives_nil : grammar.Derives [.nonterminal (1 : Fin 5)] [] :=
  (Grammar.Derives.production unfilled).trans (Grammar.derives_drop (.refl []))

theorem blank_derives_nil : grammar.Derives [.nonterminal (3 : Fin 5)] [] :=
  (Grammar.Derives.production blank).trans (Grammar.derives_drop (.refl []))

theorem void_derives_nil : grammar.Derives [.nonterminal (4 : Fin 5)] [] :=
  (Grammar.Derives.production void).trans (Grammar.derives_drop (.refl []))

theorem filler_derives_nil : grammar.Derives [.nonterminal (2 : Fin 5)] [] :=
  (Grammar.Derives.production filler).trans ((gap_derives_nil.context [] [_]).trans void_derives_nil)

theorem derives_gap : grammar.Derives [.nonterminal (0 : Fin 5)]
    [.terminal .openParen, .nonterminal (1 : Fin 5), .terminal .closeParen] :=
  .production line

theorem derives_filled : grammar.Derives [.nonterminal (0 : Fin 5)]
    [.terminal .openParen, .nonterminal (3 : Fin 5), .nonterminal (2 : Fin 5), .terminal .closeParen] :=
  derives_gap.trans ((Grammar.Derives.production filled).context [_] [_])

theorem isReachable : ∀ x, grammar.IsReachable x
  | (0 : Fin 5) => ⟨[], [], .refl _⟩
  | (1 : Fin 5) => ⟨[_], [_], derives_gap⟩
  | (2 : Fin 5) => ⟨[_, _], [_], derives_filled⟩
  | (3 : Fin 5) => ⟨[_], [_, _], derives_filled⟩
  | (4 : Fin 5) => ⟨[_, _, _], [_],
      derives_filled.trans ((Grammar.Derives.production filler).context [_, _] [_])⟩

theorem isProductive : ∀ x, grammar.IsProductive x
  | (0 : Fin 5) => ⟨[.openParen, .closeParen], derives_gap.trans (gap_derives_nil.context [_] [_])⟩
  | (1 : Fin 5) => ⟨[], gap_derives_nil⟩
  | (2 : Fin 5) => ⟨[], filler_derives_nil⟩
  | (3 : Fin 5) => ⟨[], blank_derives_nil⟩
  | (4 : Fin 5) => ⟨[], void_derives_nil⟩

theorem isLeftRecursive : grammar.IsLeftRecursive (1 : Fin 5) :=
  ⟨_, [.nonterminal (4 : Fin 5)], .replace filled [] [],
    (blank_derives_nil.context [] [_]).trans (.production filler)⟩

end Hollow

/-- A recursion behind an empty nonterminal and through another one is refused where all of it is
empty. -/
theorem conflict_of_leftRecursive_hollow :
    (∀ x, Hollow.grammar.IsReachable x) ∧ (∀ x, Hollow.grammar.IsProductive x) ∧
    Hollow.grammar.IsLeftRecursive (1 : Fin 5) ∧ ∃ c, Table.ofGrammar Hollow.grammar = .error c :=
  ⟨Hollow.isReachable, Hollow.isProductive, Hollow.isLeftRecursive,
    conflict_of_leftRecursive Hollow.isReachable Hollow.isProductive Hollow.isLeftRecursive⟩

end Predictive
