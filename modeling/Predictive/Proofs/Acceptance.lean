import Predictive.Postfix.Grammar
import Predictive.Proofs.Prediction
import Predictive.Proofs.StepLimit

/-!
# The machine accepts what the grammar derives

`parse_succeeds_iff`: the machine of a grammar's table stops without an error if and only if the start
symbol and the end marker derive the kinds of the tokens, followed by some number of end markers.

A machine that stops so has made a derivation. Conversely the machine makes the leftmost derivation
that there is, production by production (`stops_of_leftmost`): what is left on the stack derives what is
left to read, so the production that the derivation uses next is the one in the table. The end marker at
the bottom of the stack is what comes when all above it has been derived.
-/

namespace Predictive
variable {T : Type} [Terminal T] {g : Grammar T} {table : Table g} {W : FollowSets g}

theorem Config.kind_of_word {c : Config g} {k : Nat} {t : T} {v : List T}
    (h : kinds c.rest ++ List.replicate k Terminal.endMarker = t :: v) :
    c.lookahead.kind = t ∧
      ∃ j, kinds c.rest.tail ++ List.replicate j Terminal.endMarker = v := by
  unfold lookahead
  cases hr : c.rest with
  | nil =>
    rw [hr] at h
    cases k with
    | zero => cases h
    | succ k =>
      obtain ⟨ht, hv⟩ := List.cons.inj h
      exact ⟨ht, k, hv⟩
  | cons a rest =>
    rw [hr] at h
    obtain ⟨ht, hv⟩ := List.cons.inj h
    exact ⟨ht, k, hv⟩

namespace Table

theorem StopsFrom.of_epsilon {u : g.Form} {rest : List (Token T)} {close : Point} {r : ParseResult g}
    (h : table.StopsFrom ⟨.epsilon :: u, rest, close⟩ r) : table.StopsFrom ⟨u, rest, close⟩ r := by
  obtain ⟨r', hr', rfl⟩ := h.go_inv rfl
  exact hr'

/-- The machine follows a leftmost derivation of what it is to read. -/
theorem Predicts.stops_of_leftmost (h : table.Predicts W) {ps : List g.Production} {u : g.Form}
    {w : List T} (hu : g.Leftmost ps u w) {c : Config g}
    (hstack : c.stack = u ++ [.terminal Terminal.endMarker]) (hc : W.Covers c.stack) {k : Nat}
    (hw : kinds c.rest ++ List.replicate k Terminal.endMarker = w ++ [Terminal.endMarker]) :
    ∃ steps, table.StopsFrom c ⟨steps, none⟩ := by
  induction hu generalizing c k with
  | nil =>
    obtain ⟨hkind, j, hj⟩ := Config.kind_of_word hw
    have hrest : c.rest.tail = [] := List.map_eq_nil_iff.1 (List.append_eq_nil_iff.1 hj).1
    have hnext : c.next table = _ := Config.next_of_terminal hstack hkind.symm
    have hstop : Config.next table ⟨[], c.rest.tail, c.close⟩ = .stop none := by
      rw [hrest]; rfl
    exact ⟨_, .of_go hnext (.of_stop hstop)⟩
  | @terminal ps u w t hu ih =>
    obtain ⟨hkind, j, hj⟩ := Config.kind_of_word hw
    have hnext : c.next table = _ := Config.next_of_terminal hstack hkind.symm
    rw [hstack] at hc
    obtain ⟨steps, hsteps⟩ := ih (c := ⟨_, c.rest.tail, c.close⟩) rfl hc.tail hj
    exact ⟨_, .of_go hnext hsteps⟩
  | @epsilon ps u w hu ih =>
    have hnext : c.next table = _ := Config.next_of_epsilon hstack
    rw [hstack] at hc
    obtain ⟨steps, hsteps⟩ := ih (c := ⟨_, c.rest, c.close⟩) rfl hc.tail hw
    exact ⟨_, .of_go hnext hsteps⟩
  | @expand ps u w p hu ih =>
    obtain ⟨t, v, htv⟩ : ∃ t v, w ++ [Terminal.endMarker] = t :: v :=
      List.exists_cons_of_ne_nil (by simp)
    obtain ⟨hkind, -⟩ := Config.kind_of_word (hw.trans htv)
    rw [hstack, List.cons_append] at hc
    have hcell : table.get? p.left c.lookahead.kind = some p := by
      rw [hkind]; exact h.get?_of_leftmost hc hu htv
    have hnext := Config.next_of_get? hstack hcell
    obtain ⟨steps, hsteps⟩ := ih (c := ⟨p.right ++ (u ++ [.terminal Terminal.endMarker]), c.rest, c.close⟩)
      (by simp) (h.closed.covers_replace hc) hw
    have hexpansion := Grammar.Production.of_right (P := fun s => table.StopsFrom ⟨s, c.rest, c.close⟩ _)
      (fun _ => StopsFrom.of_epsilon) hsteps
    exact ⟨_, .of_go hnext hexpansion⟩

theorem Predicts.covers_start (h : table.Predicts W) : W.Covers g.startForm := h.closed.covers_start

/-- What is left on the stack is covered as what was there. -/
theorem Reaches.covers {c d : Config g} {steps : List (Step g)} (hW : W.Closed)
    (h : table.Reaches steps c d) (hc : W.Covers c.stack) : W.Covers d.stack :=
  (hW.covers_derives h.derives hc).of_append

/-- A machine that stops without an error has derived the tokens and the end markers behind them. -/
theorem StopsFrom.derives {c : Config g} {steps : List (Step g)}
    (h : table.StopsFrom c ⟨steps, none⟩) :
    ∃ k, g.Derives c.stack ((kinds c.rest ++ List.replicate k Terminal.endMarker).map .terminal) := by
  obtain ⟨d, hd, hstop⟩ := stopsFrom_iff.1 h
  have hempty := Config.empty_of_next_stop hstop rfl
  obtain ⟨htokens, hrest, -⟩ := hd.reads
  have hlen : c.rest.length ≤ (tokensRead steps).length := by
    rw [hempty.2] at hrest
    exact List.drop_eq_nil_iff.1 hrest.symm
  have hder := hd.derives
  rw [hempty.1, List.append_nil] at hder
  refine ⟨(tokensRead steps).length - c.rest.length, ?_⟩
  have hkinds : kindsRead steps = kinds c.rest ++
      List.replicate ((tokensRead steps).length - c.rest.length) Terminal.endMarker := by
    rw [kindsRead, htokens, Config.map_sees_range, List.take_of_length_le hlen]
    simp [kinds, Lookahead.ofToken, Lookahead.atEnd, Function.comp_def]
  rw [← hkinds]
  exact hder

end Table

/-- What the start symbol and the end marker derive ends in that marker. -/
theorem Grammar.derives_startForm_iff {v : List T} :
    g.Derives g.startForm (v.map .terminal) ↔
      ∃ w, v = w ++ [Terminal.endMarker] ∧ g.Derives [.nonterminal g.start] (w.map .terminal) := by
  constructor
  · exact Derives.word_append_inv (u := [.nonterminal g.start])
  · rintro ⟨w, rfl, hw⟩
    rw [List.map_append]
    exact hw.append (.refl _)

/-- The machine of a grammar's table accepts the tokens if and only if the grammar derives their kinds,
up to end markers behind them. -/
theorem parse_succeeds_iff (h : Table.ofGrammar g = .ok table) (tokens : List (Token T)) :
    ((∃ steps, table.parse tokens = some ⟨steps, none⟩) ↔
      ∃ k, g.Derives g.startForm
        ((kinds tokens ++ List.replicate k Terminal.endMarker).map .terminal)) ∧
    ((∀ p : g.Production, .terminal Terminal.endMarker ∉ p.right) →
      ((∃ steps, table.parse tokens = some ⟨steps, none⟩) ↔
        ∃ u : List T, g.Derives [.nonterminal g.start] (u.map .terminal) ∧
          (kinds tokens = u ∨ kinds tokens = u ++ [Terminal.endMarker]))) := by
  have hpred := Table.predicts_of_ofGrammar h
  have hiff : (∃ steps, table.parse tokens = some ⟨steps, none⟩) ↔
      ∃ k, g.Derives g.startForm
        ((kinds tokens ++ List.replicate k Terminal.endMarker).map .terminal) := by
    simp only [Table.parse_eq_some_iff]
    constructor
    · rintro ⟨steps, hsteps⟩
      exact Table.StopsFrom.derives hsteps
    · rintro ⟨k, hk⟩
      obtain ⟨w, hw, hder⟩ := Grammar.derives_startForm_iff.1 hk
      obtain ⟨ps, hps⟩ := hder.leftmost
      exact hpred.stops_of_leftmost hps rfl hpred.covers_start hw
  refine ⟨hiff, fun hmarker => ?_⟩
  rw [hiff]
  constructor
  · rintro ⟨k, hk⟩
    obtain ⟨w, hw, hder⟩ := Grammar.derives_startForm_iff.1 hk
    refine ⟨w, hder, ?_⟩
    -- `w` holds no end marker, so there is at most one behind it
    have hnot : Terminal.endMarker ∉ w := fun hmem =>
      hder.not_mem hmarker (by simp) (List.mem_map.2 ⟨_, hmem, rfl⟩)
    match k with
    | 0 => exact .inr (by simpa using hw)
    | 1 => exact .inl (List.append_inj_left' hw rfl)
    | k + 2 =>
      rw [List.replicate_succ', ← List.append_assoc] at hw
      have hw' := List.append_inj_left' hw rfl
      exact absurd (by rw [← hw']; simp) hnot
  · rintro ⟨u, hu, hk | hk⟩
    · exact ⟨1, Grammar.derives_startForm_iff.2 ⟨u, by rw [hk]; rfl, hu⟩⟩
    · exact ⟨0, Grammar.derives_startForm_iff.2 ⟨u, by rw [hk]; simp, hu⟩⟩

theorem Postfix.endMarker_not_mem_right (p : Postfix.grammar.Production) :
    .terminal Terminal.endMarker ∉ p.right := by
  have hall : ∀ p ∈ Postfix.grammar.productions, .terminal Terminal.endMarker ∉ p.right := by
    decide +kernel
  exact hall p (Grammar.mem_productions p)

/-- The program `(5)` is derived, because the machine accepts it. -/
theorem parse_succeeds_iff_postfix :
    let tokens : List (Token Postfix.Kind) := [⟨.openParen, "(", .single ⟨1, 1, 0⟩⟩,
      ⟨.number, "5", .single ⟨1, 2, 1⟩⟩, ⟨.closeParen, ")", .single ⟨1, 3, 2⟩⟩]
    Table.ofGrammar Postfix.grammar = .ok Postfix.table ∧
    (∃ k, Postfix.grammar.Derives Postfix.grammar.startForm
      ((kinds tokens ++ List.replicate k Terminal.endMarker).map .terminal)) ∧
    ∃ u : List Postfix.Kind, Postfix.grammar.Derives [.nonterminal Postfix.grammar.start]
      (u.map .terminal) ∧ (kinds tokens = u ∨ kinds tokens = u ++ [Terminal.endMarker]) := by
  intro tokens
  have haccept : ∃ steps, Postfix.table.parse tokens = some ⟨steps, none⟩ :=
    Table.exists_parse_eq 20 (by decide +kernel)
  have hiff := parse_succeeds_iff Postfix.ofGrammar_eq_ok tokens
  exact ⟨Postfix.ofGrammar_eq_ok, hiff.1.1 haccept, (hiff.2 Postfix.endMarker_not_mem_right).1 haccept⟩

end Predictive
