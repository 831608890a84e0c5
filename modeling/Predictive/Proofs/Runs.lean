import Predictive.Machine
import Predictive.Proofs.Derives

/-!
# Runs of the machine

What one step can do is said once, by `Config.next_eq_go` and `Config.next_eq_stop`. A run is a chain of
steps, `table.Reaches steps c d`, that records the steps of the derivation on the way, and the machine
stops on its tokens if a run leads to where the next move is to stop (`Table.stopsFrom_iff`).

A run reads its input from left to right and past its end: the tokens it matches are the first ones that
`c` sees (`Reaches.reads`). It is a derivation of what it matched and what is left on the stack
(`Reaches.derives`).
-/

namespace Predictive

section
variable {T : Type} {g : Grammar T}

def kinds (tokens : List (Token T)) : List T := tokens.map (·.kind)

@[simp] theorem kinds_nil : kinds ([] : List (Token T)) = [] := rfl

@[simp] theorem kinds_cons (t : Token T) (tokens : List (Token T)) :
    kinds (t :: tokens) = t.kind :: kinds tokens := rfl

@[simp] theorem length_kinds (tokens : List (Token T)) : (kinds tokens).length = tokens.length :=
  List.length_map _

/-- The token that a step matches. -/
def Step.token? : Step g → Option (Lookahead T)
  | .matched token => some token
  | .expanded _ => none

/-- The tokens that the steps match, in order. -/
def tokensRead (steps : List (Step g)) : List (Lookahead T) := steps.filterMap Step.token?

def kindsRead (steps : List (Step g)) : List T := (tokensRead steps).map (·.kind)

@[simp] theorem tokensRead_nil : tokensRead ([] : List (Step g)) = [] := rfl

@[simp] theorem tokensRead_matched (t : Lookahead T) (steps : List (Step g)) :
    tokensRead (.matched t :: steps) = t :: tokensRead steps := rfl

@[simp] theorem tokensRead_expanded (p : g.Production) (steps : List (Step g)) :
    tokensRead (.expanded p :: steps) = tokensRead steps := rfl

@[simp] theorem tokensRead_append (a b : List (Step g)) :
    tokensRead (a ++ b) = tokensRead a ++ tokensRead b := List.filterMap_append

theorem kindsRead_append (a b : List (Step g)) : kindsRead (a ++ b) = kindsRead a ++ kindsRead b := by
  simp [kindsRead]

@[simp] theorem length_kindsRead (steps : List (Step g)) :
    (kindsRead steps).length = (tokensRead steps).length := List.length_map _

end

variable {T : Type} [Terminal T] {g : Grammar T}

namespace Lookahead

/-- The token as the machine sees it. -/
def ofToken (t : Token T) : Lookahead T := ⟨t.kind, t.lexeme, t.position⟩

/-- The end marker that the machine assumes at the point `p`. -/
def atEnd (p : Point) : Lookahead T := ⟨Terminal.endMarker, "", p⟩

end Lookahead

namespace Grammar.Production
variable {p : g.Production} {u : g.Form}

theorem expansion_eq (p : g.Production) :
    p.expansion = p.right ∨ p.right = [.epsilon] ∧ p.expansion = [] := by
  unfold expansion
  split
  · next h => exact .inr ⟨h, rfl⟩
  · exact .inl rfl

/-- What outlives the loss of an epsilon in front carries over from the right-hand side to what the
machine puts on its stack. -/
theorem of_right {P : g.Form → Prop} (hdrop : ∀ v, P (.epsilon :: v) → P v) (h : P (p.right ++ u)) :
    P (p.expansion ++ u) := by
  rcases p.expansion_eq with hp | ⟨hp, he⟩
  · rwa [hp]
  · rw [hp] at h
    rw [he]
    exact hdrop u h

theorem derives_right {v : g.Form} (h : g.Derives (p.expansion ++ u) v) :
    g.Derives (p.right ++ u) v := by
  rcases p.expansion_eq with hp | ⟨hp, he⟩
  · rwa [← hp]
  · rw [he] at h
    rw [hp]
    exact derives_drop h

end Grammar.Production

namespace Config
variable {table : Table g} {c d : Config g}

/-- What the machine sees at the `i`-th place from here on. -/
def sees (c : Config g) (i : Nat) : Lookahead T :=
  match c.rest[i]? with
  | some t => .ofToken t
  | none => .atEnd c.close

theorem lookahead_eq_sees (c : Config g) : c.lookahead = c.sees 0 := by
  unfold lookahead sees
  cases c.rest <;> rfl

/-- The first things that the machine sees: the tokens, then end markers. -/
theorem map_sees_range (c : Config g) (n : Nat) :
    (List.range n).map c.sees = (c.rest.take n).map .ofToken ++
      List.replicate (n - c.rest.length) (.atEnd c.close) := by
  refine List.ext_getElem (by simp; omega) fun i h _ => ?_
  have hi : i < n := by simpa using h
  by_cases hr : i < c.rest.length
  · rw [List.getElem_append_left (by simp; omega)]
    simp [sees, hr]
  · rw [List.getElem_append_right (by simp; omega)]
    simp [sees, Nat.le_of_not_lt hr]

theorem sees_tail {stack : g.Form} (i : Nat) :
    sees ⟨stack, c.rest.tail, c.close⟩ i = c.sees (i + 1) := by
  simp [sees, List.getElem?_tail]

theorem next_of_terminal {t : T} {u : g.Form} (hs : c.stack = .terminal t :: u)
    (ht : t = c.lookahead.kind) :
    c.next table = .go (some (.matched c.lookahead)) ⟨u, c.rest.tail, c.close⟩ := by
  simp [next, hs, ht]

theorem next_of_get? {x : g.Nonterminal} {p : g.Production} {u : g.Form}
    (hs : c.stack = .nonterminal x :: u) (hp : table.get? x c.lookahead.kind = some p) :
    c.next table = .go (some (.expanded p)) ⟨p.expansion ++ u, c.rest, c.close⟩ := by
  simp [next, hs, hp]

theorem next_of_epsilon {u : g.Form} (hs : c.stack = .epsilon :: u) :
    c.next table = .go none ⟨u, c.rest, c.close⟩ := by
  simp [next, hs]

theorem next_of_ne {t : T} {u : g.Form} (hs : c.stack = .terminal t :: u)
    (ht : t ≠ c.lookahead.kind) :
    c.next table = .stop (some (if t = Terminal.endMarker then c.trailing
      else .unexpectedToken t c.lookahead)) := by
  simp only [next, hs, if_neg ht]
  split <;> rfl

theorem next_of_get?_none {x : g.Nonterminal} {u : g.Form} (hs : c.stack = .nonterminal x :: u)
    (hx : table.get? x c.lookahead.kind = none) :
    c.next table = .stop (some (.noRule (g.name x) c.lookahead (table.expected x))) := by
  simp only [next, hs, hx]

/-- The ways to go on: match the terminal in front, replace the nonterminal in front by the production
of the table, or drop an epsilon. -/
theorem next_eq_go {step : Option (Step g)} (h : c.next table = .go step d) :
    (∃ below, c.stack = .terminal c.lookahead.kind :: below ∧ step = some (.matched c.lookahead) ∧
      d = ⟨below, c.rest.tail, c.close⟩) ∨
    (∃ p below, c.stack = .nonterminal p.left :: below ∧
      table.get? p.left c.lookahead.kind = some p ∧ step = some (.expanded p) ∧
      d = ⟨p.expansion ++ below, c.rest, c.close⟩) ∨
    ∃ below, c.stack = .epsilon :: below ∧ step = none ∧ d = ⟨below, c.rest, c.close⟩ := by
  obtain ⟨stack, rest, close⟩ := c
  unfold next at h
  split at h
  · cases h
  · next t below hs =>
    split at h
    · next ht =>
      cases h
      exact .inl ⟨below, by rw [← ht]; exact hs, rfl, rfl⟩
    · split at h <;> cases h
  · next x below hs =>
    split at h
    · next p hp =>
      cases h
      obtain rfl := Table.left_of_get? hp
      exact .inr (.inl ⟨p, below, hs, hp, rfl, rfl⟩)
    · cases h
  · next below hs =>
    cases h
    exact .inr (.inr ⟨below, hs, rfl, rfl⟩)

/-- The reasons to stop: everything is read, tokens are left over, the terminal in front is not the next
token, or the table has no production for the nonterminal in front. -/
theorem next_eq_stop {error : Option (ParseError T)} (h : c.next table = .stop error) :
    (c.stack = [] ∧ c.rest = [] ∧ error = none) ∨
    (c.stack = [] ∧ c.rest ≠ [] ∧ error = some c.trailing) ∨
    (∃ t below, c.stack = .terminal t :: below ∧ t ≠ c.lookahead.kind ∧
      error = some (if t = Terminal.endMarker then c.trailing
        else .unexpectedToken t c.lookahead)) ∨
    ∃ x below, c.stack = .nonterminal x :: below ∧ table.get? x c.lookahead.kind = none ∧
      error = some (.noRule (g.name x) c.lookahead (table.expected x)) := by
  unfold next at h
  split at h
  · next hs =>
    cases h
    cases hr : c.rest with
    | nil => exact .inl ⟨hs, rfl, by simp⟩
    | cons t rest => exact .inr (.inl ⟨hs, by simp, by simp⟩)
  · next t below hs =>
    split at h
    · cases h
    · next ht =>
      refine .inr (.inr (.inl ⟨t, below, hs, ht, ?_⟩))
      split at h
      · next he => cases h; rw [if_pos he]
      · next he => cases h; rw [if_neg he]
  · next x below hs =>
    split at h
    · cases h
    · next hx =>
      cases h
      exact .inr (.inr (.inr ⟨x, below, hs, hx, rfl⟩))
  · cases h

theorem empty_of_next_stop {error : Option (ParseError T)} (h : c.next table = .stop error)
    (he : error = none) : c.stack = [] ∧ c.rest = [] := by
  rcases next_eq_stop h with ⟨hs, hr, -⟩ | ⟨-, -, hsome⟩ | ⟨t, below, -, -, hsome⟩ |
    ⟨x, below, -, -, hsome⟩
  · exact ⟨hs, hr⟩
  all_goals
    rw [hsome] at he
    cases he

theorem found_of_next {e : ParseError T} (h : c.next table = .stop (some e)) :
    e.found = c.lookahead := by
  rcases next_eq_stop h with ⟨-, -, he⟩ | ⟨-, -, he⟩ | ⟨t, below, -, -, he⟩ | ⟨x, below, -, -, he⟩
  · cases he
  · cases he; rfl
  · split at he <;> · cases he; rfl
  · cases he; rfl

end Config

namespace Table
variable {table : Table g} {c d e : Config g} {steps more : List (Step g)} {r : ParseResult g}

/-- The machine gets from one configuration to another by the given steps of a derivation. -/
inductive Reaches (table : Table g) : List (Step g) → Config g → Config g → Prop where
  | refl (c : Config g) : Reaches table [] c c
  | head {c d e : Config g} {step : Option (Step g)} {steps : List (Step g)} :
    c.next table = .go step d → Reaches table steps d e → Reaches table (step.toList ++ steps) c e

namespace Reaches

/-- A run matches the tokens that come next, in order, and leaves the others. -/
theorem reads (h : table.Reaches steps c d) :
    tokensRead steps = (List.range (tokensRead steps).length).map c.sees ∧
      d.rest = c.rest.drop (tokensRead steps).length ∧ d.close = c.close := by
  induction h with
  | refl => exact ⟨rfl, rfl, rfl⟩
  | @head c d e step steps hstep _ ih =>
    obtain ⟨htokens, hrest, hclose⟩ := ih
    rcases Config.next_eq_go hstep with ⟨below, -, rfl, rfl⟩ | ⟨p, below, -, -, rfl, rfl⟩ |
      ⟨below, -, rfl, rfl⟩
    · have hsees : ∀ i, Config.sees ⟨below, c.rest.tail, c.close⟩ i = c.sees (i + 1) :=
        Config.sees_tail
      refine ⟨?_, by simpa [Nat.add_comm] using hrest, hclose⟩
      simp only [Option.toList_some, List.singleton_append, tokensRead_matched, List.length_cons,
        List.range_succ_eq_map, List.map_cons, List.map_map, c.lookahead_eq_sees]
      rw [htokens]
      simp [Function.comp_def, hsees]
    · exact ⟨htokens, hrest, hclose⟩
    · exact ⟨htokens, hrest, hclose⟩

theorem sees (h : table.Reaches steps c d) (i : Nat) :
    d.sees i = c.sees ((tokensRead steps).length + i) := by
  obtain ⟨-, hrest, hclose⟩ := h.reads
  simp [Config.sees, hrest, hclose]

theorem trans (h : table.Reaches steps c d) (h' : table.Reaches more d e) :
    table.Reaches (steps ++ more) c e := by
  induction h with
  | refl => exact h'
  | head hnext _ ih =>
    rw [List.append_assoc]
    exact .head hnext (ih h')

/-- A run is a derivation of what it matched and what is left on the stack. -/
theorem derives (h : table.Reaches steps c d) :
    g.Derives c.stack ((kindsRead steps).map .terminal ++ d.stack) := by
  induction h with
  | refl => exact .refl _
  | @head c d e step steps hstep _ ih =>
    rcases Config.next_eq_go hstep with ⟨below, hs, rfl, rfl⟩ | ⟨p, below, hs, -, rfl, rfl⟩ |
      ⟨below, hs, rfl, rfl⟩
    · rw [hs]
      exact (Grammar.Derives.refl [.terminal c.lookahead.kind]).append ih
    · rw [hs]
      exact Grammar.derives_replace p (Grammar.Production.derives_right ih)
    · rw [hs]
      exact Grammar.derives_drop ih

end Reaches

theorem run_of_stop {error : Option (ParseError T)} (h : c.next table = .stop error) (limit : Nat) :
    table.run (limit + 1) c = some ⟨[], error⟩ := by
  simp [run, h]

theorem run_of_go {step : Option (Step g)} (h : c.next table = .go step d) (limit : Nat) :
    table.run (limit + 1) c =
      (table.run limit d).map fun r => ⟨step.toList ++ r.derivation, r.error⟩ := by
  rw [run, h]
  cases hrun : table.run limit d <;> simp [hrun]

/-- The machine stops, from `c` on, with the given result. -/
def StopsFrom (table : Table g) (c : Config g) (r : ParseResult g) : Prop :=
  ∃ limit, table.run limit c = some r

namespace StopsFrom

theorem of_stop {error : Option (ParseError T)} (h : c.next table = .stop error) :
    table.StopsFrom c ⟨[], error⟩ := ⟨1, run_of_stop h 0⟩

theorem of_go {step : Option (Step g)} (h : c.next table = .go step d) (hd : table.StopsFrom d r) :
    table.StopsFrom c ⟨step.toList ++ r.derivation, r.error⟩ := by
  obtain ⟨limit, hlimit⟩ := hd
  exact ⟨limit + 1, by rw [run_of_go h, hlimit, Option.map_some]⟩

theorem exists_of_go (h : ∀ step d, c.next table = .go step d → ∃ r, table.StopsFrom d r) :
    ∃ r, table.StopsFrom c r := by
  cases hnext : c.next table with
  | stop error => exact ⟨_, of_stop hnext⟩
  | go step d =>
    obtain ⟨r, hr⟩ := h step d hnext
    exact ⟨_, of_go hnext hr⟩

end StopsFrom

/-- A machine stops where a run leads that cannot go on. -/
theorem stopsFrom_iff :
    table.StopsFrom c r ↔ ∃ d, table.Reaches r.derivation c d ∧ d.next table = .stop r.error := by
  constructor
  · rintro ⟨limit, hlimit⟩
    induction limit generalizing c r with
    | zero => simp [run] at hlimit
    | succ limit ih =>
      cases hnext : c.next table with
      | stop error =>
        rw [run_of_stop hnext] at hlimit
        obtain rfl := Option.some.inj hlimit
        exact ⟨c, .refl c, hnext⟩
      | go step d =>
        rw [run_of_go hnext] at hlimit
        obtain ⟨r', hrun, rfl⟩ := Option.map_eq_some_iff.1 hlimit
        obtain ⟨e, he, hstop⟩ := ih hrun
        exact ⟨e, .head hnext he, hstop⟩
  · rintro ⟨d, hd, hstop⟩
    obtain ⟨steps, error⟩ := r
    dsimp only at hd hstop
    induction hd with
    | refl => exact .of_stop hstop
    | head step _ ih => exact .of_go step (ih hstop)

/-- A machine that stops has made the step that it could make. -/
theorem StopsFrom.go_inv {step : Option (Step g)} (hnext : c.next table = .go step d)
    (h : table.StopsFrom c r) :
    ∃ r', table.StopsFrom d r' ∧ r = ⟨step.toList ++ r'.derivation, r'.error⟩ := by
  obtain ⟨e, he, hstop⟩ := stopsFrom_iff.1 h
  obtain ⟨steps, error⟩ := r
  dsimp only at he hstop
  cases he with
  | refl => cases hnext.symm.trans hstop
  | @head _ _ _ _ steps hnext' he =>
    cases hnext.symm.trans hnext'
    exact ⟨⟨steps, error⟩, stopsFrom_iff.2 ⟨e, he, hstop⟩, rfl⟩

end Table

end Predictive
