import Predictive.Postfix.Grammar
import Predictive.Proofs.Resolution
import Predictive.Proofs.StepLimit

/-!
# The trace replays as a leftmost derivation

The steps that a machine returns, whether it stops with an error or not, can be replayed without the
machine: each acts on what is leftmost of the string not yet matched, which is the terminal that it
matches or the nonterminal that it replaces (`Step.act?`). What the replay leaves is the machine's
stack, at every moment (`Reaches.replay?_eq`).

This needs a grammar made of rules, in which epsilon is an alternative of its own. The machine knows
that case and leaves the epsilon out, so none is ever on its stack; an epsilon in a longer alternative
would get there. Whether the table is the grammar's does not matter.
-/

namespace Predictive
variable {T : Type} [Terminal T] {g : Grammar T} {table : Table g} {c d : Config g}
  {steps : List (Step g)}

/-- The leftmost symbol of the form is matched, or replaced by a right-hand side with epsilon read as
nothing. -/
def Step.act? : Step g → g.Form → Option g.Form
  | .matched token, .terminal t :: u => if token.kind = t then some u else none
  | .expanded p, .nonterminal x :: u =>
    if p.left = x then some (p.right.filter (· ≠ .epsilon) ++ u) else none
  | _, _ => none

/-- What the steps leave of the form. -/
def replay? : List (Step g) → g.Form → Option g.Form
  | [], u => some u
  | step :: steps, u => (step.act? u).bind (replay? steps)

/-- If epsilon stands alone, the machine puts all of a right-hand side but epsilon on its stack. -/
theorem Grammar.EpsilonAlone.expansion_eq (hg : g.EpsilonAlone) (p : g.Production) :
    p.expansion = p.right.filter (· ≠ .epsilon) := by
  rcases hg p with hp | hp
  · have hexpansion : p.expansion = [] := if_pos hp
    rw [hexpansion, hp]
    simp
  · have hexpansion : p.expansion = p.right := if_neg fun h => hp (by rw [h]; simp)
    rw [hexpansion, List.filter_eq_self.2]
    exact fun s hs => decide_eq_true fun h => hp (h ▸ hs)

/-- A step of the machine is a step of the replay. -/
theorem Config.act?_of_go (hg : g.EpsilonAlone) (hc : .epsilon ∉ c.stack) {step : Option (Step g)}
    (hnext : c.next table = .go step d) :
    .epsilon ∉ d.stack ∧ ∃ s, step = some s ∧ s.act? c.stack = some d.stack := by
  rcases next_eq_go hnext with ⟨below, hs, rfl, rfl⟩ | ⟨p, below, hs, -, rfl, rfl⟩ |
    ⟨below, hs, rfl, rfl⟩
  · rw [hs] at hc ⊢
    exact ⟨fun h => hc (List.mem_cons_of_mem _ h), _, rfl, if_pos rfl⟩
  · rw [hs] at hc ⊢
    rw [hg.expansion_eq p]
    refine ⟨fun h => ?_, _, rfl, if_pos rfl⟩
    rcases List.mem_append.1 h with h | h
    · simp at h
    · exact hc (List.mem_cons_of_mem _ h)
  · rw [hs] at hc
    exact absurd (List.mem_cons_self ..) hc

theorem Config.kind_sees (c : Config g) (i : Nat) :
    (c.sees i).kind = (kinds c.rest)[i]?.getD Terminal.endMarker := by
  unfold sees kinds
  rw [List.getElem?_map]
  cases c.rest[i]? <;> rfl

namespace Table.Reaches

/-- The form not yet matched is the stack, read from the top, and has no epsilon. -/
theorem replay?_eq (hg : g.EpsilonAlone) (h : table.Reaches steps c d) (hc : .epsilon ∉ c.stack) :
    .epsilon ∉ d.stack ∧ replay? steps c.stack = some d.stack := by
  induction h with
  | refl => exact ⟨hc, rfl⟩
  | head hnext _ ih =>
    obtain ⟨hd, s, rfl, hs⟩ := Config.act?_of_go hg hc hnext
    obtain ⟨he, hreplay⟩ := ih hd
    refine ⟨he, ?_⟩
    rw [Option.toList_some, List.singleton_append, replay?, hs, Option.bind_some, hreplay]

/-- A nonterminal is replaced by the production in its cell for the next token. -/
theorem get?_of_expanded (h : table.Reaches steps c d) {a b : List (Step g)} {p : g.Production}
    (hsteps : steps = a ++ .expanded p :: b) :
    table.get? p.left (c.sees (tokensRead a).length).kind = some p := by
  induction h generalizing a with
  | refl => simp at hsteps
  | @head c d e step steps hnext _ ih =>
    rcases Config.next_eq_go hnext with ⟨below, -, rfl, rfl⟩ | ⟨q, below, -, hq, rfl, rfl⟩ |
      ⟨below, -, rfl, rfl⟩
    · rcases List.cons_eq_append_iff.1 hsteps with ⟨-, hp⟩ | ⟨a, rfl, ha⟩
      · cases hp
      · have hcell := ih ha
        rwa [Config.sees_tail] at hcell
    · rcases List.cons_eq_append_iff.1 hsteps with ⟨rfl, hp⟩ | ⟨a, rfl, ha⟩
      · cases hp
        rw [c.lookahead_eq_sees] at hq
        exact hq
      · have hcell := ih ha
        exact hcell
    · exact ih hsteps

end Table.Reaches

/-- The trace of a machine of a grammar made of rules replays as a leftmost derivation by the cells of
its table, whose form is the stack; it matches the first tokens, and end markers only behind all of
them; without an error it matches all tokens and the whole form. -/
theorem derivation_replays {start : String} {rules : List (Rule T)}
    (hg : Grammar.ofRules start rules = .ok g) (table : Table g) (tokens : List (Token T)) :
    (∀ steps d, table.Reaches steps (.start g tokens) d →
      .epsilon ∉ d.stack ∧ replay? steps g.startForm = some d.stack) ∧
    ∀ r, table.parse tokens = some r →
      (∃ u, replay? r.derivation g.startForm = some u ∧ (r.error = none → u = []) ∧
        g.Derives g.startForm ((kindsRead r.derivation).map .terminal ++ u)) ∧
      (∀ a p b, r.derivation = a ++ .expanded p :: b →
        table.get? p.left ((kinds tokens)[(tokensRead a).length]?.getD Terminal.endMarker) =
          some p) ∧
      ∃ m k, m ≤ tokens.length ∧ (0 < k → m = tokens.length) ∧ (r.error = none → m = tokens.length) ∧
        tokensRead r.derivation =
          (tokens.take m).map .ofToken ++ List.replicate k (.atEnd (closingPoint tokens)) := by
  have hstart : .epsilon ∉ (Config.start g tokens).stack := by simp [Config.start]
  have hreplay : ∀ steps d, table.Reaches steps (.start g tokens) d →
      .epsilon ∉ d.stack ∧ replay? steps g.startForm = some d.stack := fun steps d hd =>
    hd.replay?_eq (Grammar.epsilonAlone_of_ofRules hg) hstart
  refine ⟨hreplay, fun r hr => ?_⟩
  obtain ⟨d, hd, hstop⟩ := Table.stopsFrom_iff.1 (Table.parse_eq_some_iff.1 hr)
  obtain ⟨hread, hrest, -⟩ := hd.reads
  have hend : r.error = none → d.stack = [] ∧ d.rest = [] := Config.empty_of_next_stop hstop
  refine ⟨⟨d.stack, (hreplay _ d hd).2, fun he => (hend he).1, hd.derives⟩, fun a p b hsteps => ?_,
    min (tokensRead r.derivation).length tokens.length, (tokensRead r.derivation).length - tokens.length,
    Nat.min_le_right _ _, fun hk => by omega, fun he => ?_, ?_⟩
  · have hcell := hd.get?_of_expanded hsteps
    rwa [Config.kind_sees] at hcell
  · have hall : tokens.length ≤ (tokensRead r.derivation).length :=
      List.drop_eq_nil_iff.1 (hrest.symm.trans (hend he).2)
    omega
  · rw [← List.take_eq_take_min]
    exact hread.trans (Config.map_sees_range _ _)

/-- On the program `(5)` the trace matches all three tokens, an end marker, and the whole form. -/
theorem derivation_replays_postfix :
    let tokens : List (Token Postfix.Kind) := [⟨.openParen, "(", .single ⟨1, 1, 0⟩⟩,
      ⟨.number, "5", .single ⟨1, 2, 1⟩⟩, ⟨.closeParen, ")", .single ⟨1, 3, 2⟩⟩]
    ∃ steps, Postfix.table.parse tokens = some ⟨steps, none⟩ ∧
      replay? steps Postfix.grammar.startForm = some [] ∧
      ∃ k, tokensRead steps = tokens.map .ofToken ++ List.replicate k (.atEnd ⟨1, 3, 2⟩) := by
  intro tokens
  obtain ⟨steps, hparse⟩ : ∃ steps, Postfix.table.parse tokens = some ⟨steps, none⟩ :=
    Table.exists_parse_eq 20 (by decide +kernel)
  have hreplay := derivation_replays Postfix.ofRules_eq_ok Postfix.table tokens
  obtain ⟨⟨u, hu, hnil, -⟩, -, m, k, -, -, hm, hread⟩ := hreplay.2 _ hparse
  rw [hnil rfl] at hu
  rw [hm rfl, List.take_length] at hread
  exact ⟨steps, hparse, hu, k, hread⟩

end Predictive
