import Predictive.Proofs.Acceptance

/-!
# Errors are found at the first wrong token

What the machine of a grammar's table has matched when it stops with an error can be continued to a
string that the start symbol and the end marker derive, and with the next token behind it, it cannot
(`error_at_first_wrong_token`).

For the second half, suppose that it could. A derivation of what is matched and the next token has no
choice but to use the productions that the machine used (`Predicts.derives_of_reaches`), because each
was chosen by the table for the terminal that had to come. FOLLOW may let a nonterminal vanish that had
better not, but only where no derivation leads to the next token anyway. So what is left on the stack
when the machine stops derives a string that begins with the next token, and then the machine would
have gone on (`Predicts.goes_of_derives`).
-/

namespace Predictive
variable {T : Type} [Terminal T] {g : Grammar T} {table : Table g} {W : FollowSets g} {c d : Config g}
  {steps : List (Step g)}

namespace Table

theorem Reaches.lookahead_kind (h : table.Reaches steps c d) :
    ∃ w, kindsRead steps ++ [d.lookahead.kind] = c.lookahead.kind :: w := by
  induction h with
  | refl c => exact ⟨[], rfl⟩
  | @head c d e step steps hnext _ ih =>
    rcases Config.next_eq_go hnext with ⟨below, -, rfl, rfl⟩ | ⟨p, below, -, -, rfl, rfl⟩ |
      ⟨below, -, rfl, rfl⟩
    · exact ⟨kindsRead steps ++ [e.lookahead.kind], rfl⟩
    · exact ih
    · exact ih

namespace Predicts
variable {v : g.Form}

/-- One step of the machine keeps to any derivation of what it sees. -/
theorem derives_of_go (h : table.Predicts W) (hc : W.Covers c.stack) {step : Option (Step g)}
    (hnext : c.next table = .go step d)
    (hd : g.Derives c.stack (.terminal c.lookahead.kind :: v)) :
    W.Covers d.stack ∧ ∃ w, (kindsRead step.toList).map .terminal ++ w = .terminal c.lookahead.kind :: v ∧
      g.Derives d.stack w := by
  rcases Config.next_eq_go hnext with ⟨below, hs, rfl, rfl⟩ | ⟨p, below, hs, hp, rfl, rfl⟩ |
    ⟨below, hs, rfl, rfl⟩
  · rw [hs] at hc hd
    obtain ⟨w, hw, hbelow⟩ := hd.terminal_inv
    exact ⟨hc, w, hw.symm, hbelow⟩
  · rw [hs] at hc hd
    obtain ⟨q, hq, hcell, hright⟩ := h.cell_of_derives hc hd
    -- the cell has one production
    obtain rfl := Option.some.inj (hp.symm.trans hcell)
    exact ⟨Grammar.Production.of_right (fun _ => FollowSets.Covers.tail) (h.closed.covers_replace hc), _, rfl,
      Grammar.Production.of_right (P := fun s => g.Derives s _) (fun _ => Grammar.Derives.of_epsilon) hright⟩
  · rw [hs] at hc hd
    exact ⟨hc, _, rfl, hd.of_epsilon⟩

/-- A run keeps to any derivation of what it matches and the token after it. -/
theorem derives_of_reaches (h : table.Predicts W) (hr : table.Reaches steps c d)
    (hc : W.Covers c.stack) (hd : g.Derives c.stack
      ((kindsRead steps).map .terminal ++ .terminal d.lookahead.kind :: v)) :
    W.Covers d.stack ∧ g.Derives d.stack (.terminal d.lookahead.kind :: v) := by
  induction hr with
  | refl => exact ⟨hc, hd⟩
  | @head c c' d step steps hnext hr ih =>
    obtain ⟨w, hw⟩ := (Reaches.head hnext hr).lookahead_kind
    have hword : (kindsRead (step.toList ++ steps)).map .terminal ++ .terminal d.lookahead.kind :: v =
        .terminal c.lookahead.kind :: (w.map .terminal ++ v) := by
      have hmap := congrArg (List.map (Symbol.terminal (N := g.Nonterminal)) · ++ v) hw
      simpa using hmap
    rw [hword] at hd
    obtain ⟨hcovers, w', hw', hder⟩ := h.derives_of_go hc hnext hd
    refine ih hcovers ?_
    have hrest : w' = (kindsRead steps).map .terminal ++ .terminal d.lookahead.kind :: v := by
      rw [← hw'] at hword
      simpa [kindsRead] using hword.symm
    rwa [← hrest]

theorem goes_of_derives (h : table.Predicts W) (hc : W.Covers c.stack)
    (hd : g.Derives c.stack (.terminal c.lookahead.kind :: v)) :
    ∃ step d, c.next table = .go step d := by
  cases hs : c.stack with
  | nil =>
    rw [hs] at hd
    cases hd.nil_inv
  | cons s u =>
    rw [hs] at hc hd
    cases s with
    | terminal t =>
      obtain ⟨w, hw, -⟩ := hd.terminal_inv
      cases hw
      exact ⟨_, _, Config.next_of_terminal hs rfl⟩
    | nonterminal x =>
      obtain ⟨p, -, hp, -⟩ := h.cell_of_derives hc hd
      exact ⟨_, _, Config.next_of_get? hs hp⟩
    | epsilon => exact ⟨_, _, Config.next_of_epsilon hs⟩

end Predicts

end Table

/-- What is matched before an error begins a string that is derived from the start symbol and the end
marker, and with the offending kind behind it, it does not. The offending token is the one after those
matched, or the end marker at the end of the last token. -/
theorem error_at_first_wrong_token (h : Table.ofGrammar g = .ok table) {tokens : List (Token T)}
    {e : ParseError T} (hparse : table.parse tokens = some ⟨steps, some e⟩) :
    (∃ v, g.Derives g.startForm ((kindsRead steps).map .terminal ++ v)) ∧
    (¬ ∃ v, g.Derives g.startForm
      ((kindsRead steps).map .terminal ++ .terminal e.found.kind :: v)) ∧
    e.found = match tokens[(kindsRead steps).length]? with
      | some t => ⟨t.kind, t.lexeme, t.position⟩
      | none => ⟨Terminal.endMarker, "", closingPoint tokens⟩ := by
  have hpred := Table.predicts_of_ofGrammar h
  obtain ⟨d, hd, hstop⟩ := Table.stopsFrom_iff.1 (Table.parse_eq_some_iff.1 hparse)
  have hfound : e.found = d.lookahead := Config.found_of_next hstop
  refine ⟨⟨d.stack, hd.derives⟩, ?_, ?_⟩
  · rintro ⟨v, hv⟩
    rw [hfound] at hv
    obtain ⟨hcovers, hder⟩ := hpred.derives_of_reaches hd hpred.covers_start hv
    obtain ⟨step, d', hgo⟩ := hpred.goes_of_derives hcovers hder
    rw [hstop] at hgo
    cases hgo
  · rw [hfound, d.lookahead_eq_sees, hd.sees, length_kindsRead]
    rfl

/-- No program begins with `(5` and ends there, and the machine says so behind the `5`. -/
theorem error_at_first_wrong_token_postfix :
    let tokens : List (Token Postfix.Kind) := [⟨.openParen, "(", .single ⟨1, 1, 0⟩⟩,
      ⟨.number, "5", .single ⟨1, 2, 1⟩⟩]
    ∃ steps e, Postfix.table.parse tokens = some ⟨steps, some e⟩ ∧
      kindsRead steps = [.openParen, .number] ∧
      (¬ ∃ v, Postfix.grammar.Derives Postfix.grammar.startForm
        (.terminal .openParen :: .terminal .number :: .terminal .endOfInput :: v)) ∧
      e.found = ⟨.endOfInput, "", ⟨1, 2, 1⟩⟩ := by
  intro tokens
  have hrun : (Postfix.table.run 20 (.start Postfix.grammar tokens)).map
      (fun r => (kindsRead r.derivation, r.error.map (·.found.kind))) =
      some ([.openParen, .number], some .endOfInput) := by decide +kernel
  obtain ⟨⟨steps, error⟩, hr, hkinds⟩ := Option.map_eq_some_iff.1 hrun
  obtain ⟨hread, herror⟩ := Prod.mk.inj hkinds
  obtain ⟨e, rfl, hfound⟩ := Option.map_eq_some_iff.1 herror
  have hparse : Postfix.table.parse tokens = some ⟨steps, some e⟩ :=
    Table.parse_eq_some_iff.2 ⟨20, hr⟩
  obtain ⟨-, hnot, hplace⟩ := error_at_first_wrong_token Postfix.ofGrammar_eq_ok hparse
  rw [hread, hfound] at hnot
  rw [hread] at hplace
  exact ⟨steps, e, hparse, hread, hnot, hplace⟩

end Predictive
