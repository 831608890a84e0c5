import Predictive.Proofs.Diagnosis
import Predictive.Proofs.Replay

/-!
# Every cell is used

If every nonterminal of a grammar is reachable and derives some string of terminals, its table has no
cell in vain: each one is used on some input that the machine accepts (`exists_parse_of_get?`).

The cell for `x` and `t` is there because the start symbol and the end marker derive a string in which
`x` stands in front of what derives, through the cell's production, something that begins with `t`. What
stands before `x` derives some string of terminals. It does not have to be derived first, though, and
the machine makes leftmost steps only; `Leaves g u w v` is a leftmost derivation that stops half-way,
with `w` read and `v` to go. Wherever a derivation comes upon `x` a leftmost one does, once it has read
what stands before it, and what it has left derives what the other one has (`Derives.leaves`). The
machine follows it (`Predicts.reaches_of_leaves`), and finds there `x` in front and `t` as the next token.
-/

namespace Predictive

namespace Grammar
variable {T : Type} {g : Grammar T}

/-- Leftmost steps from `u` have derived the terminals `w` in front, and `v` is left behind them. -/
inductive Leaves (g : Grammar T) : g.Form → List T → g.Form → Prop where
  | refl (u : g.Form) : Leaves g u [] u
  | terminal {u v : g.Form} {w : List T} (t : T) : Leaves g u w v → Leaves g (.terminal t :: u) (t :: w) v
  | epsilon {u v : g.Form} {w : List T} : Leaves g u w v → Leaves g (.epsilon :: u) w v
  | expand {u v : g.Form} {w : List T} (p : g.Production) :
    Leaves g (p.right ++ u) w v → Leaves g (.nonterminal p.left :: u) w v

namespace Leaves
variable {u v s : g.Form} {w w' : List T} {ps : List g.Production}

theorem derives (h : g.Leaves u w v) : g.Derives u (w.map .terminal ++ v) := by
  induction h with
  | refl u => exact .refl u
  | terminal t _ ih => exact (Derives.refl [.terminal t]).append ih
  | epsilon _ ih => exact derives_drop ih
  | expand p _ ih => exact derives_replace p ih

theorem append_right (h : g.Leaves u w v) (s : g.Form) : g.Leaves (u ++ s) w (v ++ s) := by
  induction h with
  | refl u => exact .refl _
  | terminal t _ ih => exact .terminal t ih
  | epsilon _ ih => exact .epsilon ih
  | expand p _ ih =>
    rw [List.append_assoc] at ih
    exact .expand p ih

/-- What stands in front is read first. -/
theorem skip (hu : g.Leftmost ps u w) (hv : g.Leaves v w' s) : g.Leaves (u ++ v) (w ++ w') s := by
  induction hu with
  | nil => exact hv
  | terminal t _ ih => exact .terminal t ih
  | epsilon _ ih => exact .epsilon ih
  | expand p _ ih =>
    rw [List.append_assoc] at ih
    exact .expand p ih

theorem append_inv (h : g.Leaves (u ++ v) w s) :
    (∃ s', s' ≠ [] ∧ s = s' ++ v ∧ g.Leaves u w s') ∨
    ∃ ps w₁ w₂, w = w₁ ++ w₂ ∧ g.Leftmost ps u w₁ ∧ g.Leaves v w₂ s := by
  generalize hz : u ++ v = z at h
  induction h generalizing u with
  | refl z =>
    cases u with
    | nil => exact .inr ⟨[], [], [], rfl, .nil, hz ▸ .refl _⟩
    | cons a u => exact .inl ⟨a :: u, by simp, hz.symm, .refl _⟩
  | @terminal z s w t h ih =>
    rcases List.append_eq_cons_iff.1 hz with ⟨rfl, rfl⟩ | ⟨u, rfl, rfl⟩
    · exact .inr ⟨[], [], t :: w, rfl, .nil, .terminal t h⟩
    · rcases ih rfl with ⟨s', hs', hs, hu⟩ | ⟨ps, w₁, w₂, rfl, hu, hv⟩
      · exact .inl ⟨s', hs', hs, .terminal t hu⟩
      · exact .inr ⟨ps, t :: w₁, w₂, rfl, .terminal t hu, hv⟩
  | @epsilon z s w h ih =>
    rcases List.append_eq_cons_iff.1 hz with ⟨rfl, rfl⟩ | ⟨u, rfl, rfl⟩
    · exact .inr ⟨[], [], w, rfl, .nil, .epsilon h⟩
    · rcases ih rfl with ⟨s', hs', hs, hu⟩ | ⟨ps, w₁, w₂, rfl, hu, hv⟩
      · exact .inl ⟨s', hs', hs, .epsilon hu⟩
      · exact .inr ⟨ps, w₁, w₂, rfl, .epsilon hu, hv⟩
  | @expand z s w p h ih =>
    rcases List.append_eq_cons_iff.1 hz with ⟨rfl, rfl⟩ | ⟨u, rfl, rfl⟩
    · exact .inr ⟨[], [], w, rfl, .nil, .expand p h⟩
    · rcases ih (u := p.right ++ u) (by simp) with ⟨s', hs', hs, hu⟩ | ⟨ps, w₁, w₂, rfl, hu, hv⟩
      · exact .inl ⟨s', hs', hs, .expand p hu⟩
      · exact .inr ⟨p :: ps, w₁, w₂, rfl, .expand p hu, hv⟩

/-- The end marker behind the start symbol stays where it is. -/
theorem endMarker_last [Terminal T] {x : g.Nonterminal} (h : g.Leaves g.startForm w (.nonterminal x :: v)) :
    ∃ u, v = u ++ [.terminal Terminal.endMarker] := by
  rcases append_inv (u := [.nonterminal g.start]) h with ⟨s, hs, hv, -⟩ | ⟨-, -, w₂, -, -, hmarker⟩
  · rcases List.cons_eq_append_iff.1 hv with ⟨rfl, -⟩ | ⟨u, -, rfl⟩
    · exact absurd rfl hs
    · exact ⟨u, rfl⟩
  · cases hmarker with
    | terminal t hnil => cases hnil

end Leaves

section
variable {u v a b : g.Form} {s : Symbol T g.Nonterminal} {x : g.Nonterminal} {w : List T}

/-- A step that leftmost steps have not come to yet can be left for later. -/
theorem Leaves.context {r : g.Form} (hstep : g.Yields [s] r)
    (hleaves : ∀ {w v}, g.Leaves (r ++ b) w v → g.Leaves (s :: b) w v)
    (h : g.Leaves (a ++ (r ++ b)) w (.nonterminal x :: v)) :
    ∃ v', g.Leaves (a ++ s :: b) w (.nonterminal x :: v') ∧ g.Derives v' v := by
  rcases h.append_inv with ⟨v₁, hne, hv, ha⟩ | ⟨ps, w₁, w₂, rfl, ha, hb⟩
  · rcases List.cons_eq_append_iff.1 hv with ⟨rfl, -⟩ | ⟨v₁, rfl, rfl⟩
    · exact absurd rfl hne
    · refine ⟨v₁ ++ s :: b, ha.append_right _, .single ?_⟩
      simpa using hstep.context v₁ b
  · exact ⟨v, .skip ha (hleaves hb), .refl v⟩

theorem Yields.leaves (h : g.Yields u v) {b : g.Form} (hv : g.Leaves v w (.nonterminal x :: b)) :
    ∃ b', g.Leaves u w (.nonterminal x :: b') ∧ g.Derives b' b := by
  cases h with
  | replace p a c =>
    rw [List.append_assoc] at hv
    exact Leaves.context (by simpa using Yields.replace p [] []) (.expand p) hv
  | drop a c => exact Leaves.context (r := []) (.drop [] []) .epsilon hv

/-- Leftmost steps come upon every nonterminal that a derivation comes upon, after what stands before
it, and have left what derives all that stands behind it. -/
theorem Derives.leaves (h : g.Derives u (a ++ .nonterminal x :: b))
    (ha : g.Derives a (w.map .terminal)) :
    ∃ b', g.Leaves u w (.nonterminal x :: b') ∧ g.Derives b' b := by
  generalize hv : a ++ .nonterminal x :: b = v at h
  induction h with
  | refl v =>
    obtain ⟨ps, hps⟩ := ha.leftmost
    refine ⟨b, ?_, .refl b⟩
    simpa [← hv] using Leaves.skip hps (.refl (.nonterminal x :: b))
  | head step _ ih =>
    obtain ⟨b₁, hb₁, hb⟩ := ih hv
    obtain ⟨b', hb', hb''⟩ := step.leaves hb₁
    exact ⟨b', hb', hb''.trans hb⟩

end

end Grammar

section
variable {T : Type} [Terminal T] {g : Grammar T} {table : Table g} {W : FollowSets g}

namespace Table
variable {c d : Config g}

/-- The machine gets to where `v` is left to derive and `b` to read. -/
def Gets (table : Table g) (c : Config g) (v : g.Form) (b : List T) : Prop :=
  ∃ steps d, table.Reaches steps c d ∧ d.stack = v ∧ kinds d.rest = b

namespace Gets
variable {v : g.Form} {b : List T}

theorem of_go {step : Option (Step g)} (hnext : c.next table = .go step d) (h : table.Gets d v b) :
    table.Gets c v b := by
  obtain ⟨steps, e, he, hv, hb⟩ := h
  exact ⟨_, e, .head hnext he, hv, hb⟩

theorem of_epsilon {x : g.Nonterminal} {u s : g.Form} {rest : List (Token T)} {close : Point}
    (h : table.Gets ⟨.epsilon :: u, rest, close⟩ (.nonterminal x :: s) b) :
    table.Gets ⟨u, rest, close⟩ (.nonterminal x :: s) b := by
  obtain ⟨steps, d, hd, hv, hb⟩ := h
  cases hd with
  | refl => cases hv
  | head hnext hd =>
    cases hnext
    exact ⟨_, d, hd, hv, hb⟩

end Gets

namespace Predicts
variable {p : g.Production} {t : T}

/-- The machine follows leftmost steps to a nonterminal that derives, with what is left behind it, the
rest of the input. -/
theorem gets_of_leaves (h : table.Predicts W) {u v s : g.Form} {x : g.Nonterminal} {a b : List T}
    (hu : g.Leaves u a v) (hx : v = .nonterminal x :: s) (hb : g.Derives v (b.map .terminal))
    (hne : b ≠ []) (hstack : c.stack = u) (hc : W.Covers u) (hrest : kinds c.rest = a ++ b) :
    table.Gets c v b := by
  induction hu generalizing c with
  | refl u => exact ⟨[], c, .refl c, hstack, hrest⟩
  | @terminal u v a t hu ih =>
    obtain ⟨hkind, -⟩ := Config.kind_of_word (k := 0) (by simpa using hrest)
    have hnext : c.next table = _ := Config.next_of_terminal hstack hkind.symm
    refine .of_go hnext (ih hx hb rfl hc.tail ?_)
    have htail := congrArg List.tail hrest
    simpa [kinds, List.map_tail] using htail
  | @epsilon u v a hu ih =>
    have hnext : c.next table = _ := Config.next_of_epsilon hstack
    exact .of_go hnext (ih hx hb rfl hc.tail hrest)
  | @expand u v a p hu ih =>
    obtain ⟨t, w, htw⟩ : ∃ t w, a ++ b = t :: w := List.exists_cons_of_ne_nil (by simp [hne])
    obtain ⟨hkind, -⟩ := Config.kind_of_word (k := 0) (by simpa using hrest.trans htw)
    have hall : g.Derives (p.right ++ u) (.terminal t :: w.map .terminal) := by
      rw [← List.map_cons, ← htw, List.map_append]
      exact hu.derives.trans (by simpa using hb.context (a.map .terminal) [])
    have hcell : table.get? p.left c.lookahead.kind = some p := by
      rw [hkind]; exact h.get?_of_derives hc hall
    have hnext := Config.next_of_get? hstack hcell
    have hright := ih (c := ⟨p.right ++ u, c.rest, c.close⟩) hx hb rfl (h.closed.covers_replace hc) hrest
    subst hx
    exact .of_go hnext (Grammar.Production.of_right (P := fun s => table.Gets ⟨s, c.rest, c.close⟩ _ _)
      (fun _ => Gets.of_epsilon) hright)

/-- The nonterminal of a cell stands, in what the start symbol and the end marker derive, in front of what
derives through the cell's production something that begins with the cell's terminal. -/
theorem occurs_of_get? (h : table.Predicts (Grammar.follow g.first.value).value)
    (hreach : ∀ x, g.IsReachable x) (hp : table.get? p.left t = some p) :
    ∃ a b v, g.Derives g.startForm (a ++ .nonterminal p.left :: b) ∧
      g.Derives (p.right ++ b) (.terminal t :: v) := by
  obtain ⟨-, hbegins | ⟨hnil, ht⟩⟩ := (h.cell _ _ _).1 hp
  · obtain ⟨a, b, hstart⟩ := (hreach p.left).derives_startForm (.refl _)
    obtain ⟨v, hv⟩ := hbegins.derives
    exact ⟨a, b, v ++ b, by simpa using hstart, hv.append (.refl b)⟩
  · obtain ⟨a, b, hstart⟩ := (((follow_exact g).2 p.left t).2 hreach).1 ht
    exact ⟨a, .terminal t :: b, b, hstart, hnil.append (.refl _)⟩

/-- The same with leftmost steps, and with words in place of what derives them. -/
theorem leaves_of_get? (h : table.Predicts (Grammar.follow g.first.value).value)
    (hreach : ∀ x, g.IsReachable x) (hword : ∀ x, g.IsProductive x)
    (hp : table.get? p.left t = some p) :
    ∃ a u w z, g.Leaves g.startForm a (.nonterminal p.left :: (u ++ [.terminal Terminal.endMarker])) ∧
      g.Derives (p.right ++ u) (w.map .terminal) ∧ w ++ [Terminal.endMarker] = t :: z := by
  obtain ⟨α, β, v, hstart, hv⟩ := h.occurs_of_get? hreach hp
  obtain ⟨a, ha⟩ := Grammar.derives_word hword α
  obtain ⟨β', hleaves, hβ⟩ := hstart.leaves ha
  obtain ⟨u, rfl⟩ := hleaves.endMarker_last
  obtain ⟨z, hz⟩ := Grammar.derives_word hword v
  have hright : g.Derives (p.right ++ u ++ [.terminal Terminal.endMarker]) ((t :: z).map .terminal) := by
    rw [List.append_assoc]
    exact (((Grammar.Derives.refl p.right).append hβ).trans hv).trans
      ((Grammar.Derives.refl [.terminal t]).append hz)
  obtain ⟨w, hw, hder⟩ := hright.word_append_inv
  exact ⟨a, u, w, z, hleaves, hder, hw.symm⟩

/-- The machine accepts what leftmost steps to a nonterminal and a derivation from its production spell,
and uses the production where it gets to the nonterminal. -/
theorem stops_of_leaves (h : table.Predicts W) {u : g.Form} {a w z : List T}
    (hleaves : g.Leaves g.startForm a (.nonterminal p.left :: (u ++ [.terminal Terminal.endMarker])))
    (hright : g.Derives (p.right ++ u) (w.map .terminal)) (hw : w ++ [Terminal.endMarker] = t :: z)
    (hp : table.get? p.left t = some p) (hstack : c.stack = g.startForm)
    (hrest : kinds c.rest = a ++ (w ++ [Terminal.endMarker])) :
    ∃ before after, table.StopsFrom c ⟨before ++ .expanded p :: after, none⟩ ∧
      (c.sees (tokensRead before).length).kind = t := by
  have hfront : g.Derives (.nonterminal p.left :: (u ++ [.terminal Terminal.endMarker]))
      ((w ++ [Terminal.endMarker]).map .terminal) := by
    rw [List.map_append, ← List.cons_append]
    exact (Grammar.derives_replace p hright).append (.refl _)
  obtain ⟨before, d, hd, hs, hk⟩ := h.gets_of_leaves hleaves rfl hfront (by simp) hstack
    h.covers_start hrest
  have hkind : d.lookahead.kind = t := (Config.kind_of_word (k := 0) (by simpa using hk.trans hw)).1
  have hnext := Config.next_of_get? hs (hkind ▸ hp)
  -- from there on the machine makes a leftmost derivation that begins with `p`
  have hcovers : W.Covers d.stack := hd.covers h.closed (by rw [hstack]; exact h.covers_start)
  obtain ⟨ps, hps⟩ := hright.leftmost
  obtain ⟨steps, hsteps⟩ := h.stops_of_leftmost (.expand p hps) hs hcovers (k := 0) (by simpa using hk)
  obtain ⟨⟨after, error⟩, hafter, hr⟩ := hsteps.go_inv hnext
  cases hr
  obtain ⟨e, he, hstop⟩ := stopsFrom_iff.1 hsteps
  refine ⟨before, after, stopsFrom_iff.2 ⟨e, hd.trans he, hstop⟩, ?_⟩
  have hsees := hd.sees 0
  rw [Nat.add_zero] at hsees
  rw [← hsees, ← d.lookahead_eq_sees, hkind]

end Predicts

end Table

/-- If all nonterminals are reachable and productive, every cell is used on some accepted input: the
machine replaces the cell's nonterminal by its production when the next token, or the end marker if there
is none, is the cell's terminal. -/
theorem exists_parse_of_get? (h : Table.ofGrammar g = .ok table) (hreach : ∀ x, g.IsReachable x)
    (hword : ∀ x, g.IsProductive x) {x : g.Nonterminal} {t : T} {p : g.Production}
    (hp : table.get? x t = some p) :
    p.left = x ∧ ∃ tokens before after,
      table.parse tokens = some ⟨before ++ .expanded p :: after, none⟩ ∧
      (kinds tokens)[(tokensRead before).length]?.getD Terminal.endMarker = t := by
  have hpred := Table.predicts_of_ofGrammar h
  obtain rfl := Table.left_of_get? hp
  obtain ⟨a, u, w, z, hleaves, hright, hw⟩ := hpred.leaves_of_get? hreach hword hp
  let token : T → Token T := fun t => ⟨t, "", .single .start⟩
  let tokens := (a ++ (w ++ [Terminal.endMarker])).map token
  have hkinds : kinds tokens = a ++ (w ++ [Terminal.endMarker]) := by
    simp [kinds, tokens, token, Function.comp_def]
  obtain ⟨before, after, hstops, hkind⟩ := hpred.stops_of_leaves (c := .start g tokens) hleaves hright hw hp
    rfl hkinds
  refine ⟨rfl, tokens, before, after, Table.parse_eq_some_iff.2 hstops, ?_⟩
  rw [← hkind, Config.kind_sees]
  rfl

end

/-! ### The empty list of items -/

namespace Listing

def noItems : grammar.Production := ⟨items, ⟨1, by decide⟩⟩

theorem isSome_ofGrammar : (Table.ofGrammar grammar).toOption.isSome := by decide +kernel

def table : Table grammar := (Table.ofGrammar grammar).toOption.get isSome_ofGrammar

theorem isProductive (x : grammar.Nonterminal) : grammar.IsProductive x := by
  have hall : ∀ x, grammar.productiveWithin 2 x = true := by decide +kernel
  exact Grammar.isProductive_of_within (hall x)

end Listing

/-- Some accepted input has no items, or no more, before the parenthesis that closes it. -/
theorem exists_parse_of_get?_listing :
    Table.ofGrammar Listing.grammar = .ok Listing.table ∧ (∀ x, Listing.grammar.IsReachable x) ∧
    (∀ x, Listing.grammar.IsProductive x) ∧
    Listing.table.get? Listing.items .closeParen = some Listing.noItems ∧
    ∃ tokens before after,
      Listing.table.parse tokens = some ⟨before ++ .expanded Listing.noItems :: after, none⟩ ∧
      (kinds tokens)[(tokensRead before).length]?.getD Terminal.endMarker = .closeParen := by
  have hok : Table.ofGrammar Listing.grammar = .ok Listing.table :=
    Postfix.eq_ok_get Listing.isSome_ofGrammar
  have hcell : Listing.table.get? Listing.items .closeParen = some Listing.noItems := by decide +kernel
  exact ⟨hok, Listing.isReachable, Listing.isProductive, hcell,
    (exists_parse_of_get? hok Listing.isReachable Listing.isProductive hcell).2⟩

end Predictive
