import Predictive.Table
import Predictive.Text.Quoted
import Predictive.Token

/-!
# The stack machine of a table

The machine reads tokens from left to right and keeps the string that the rest of the input has to be
derived from, leftmost symbol first. At each step it looks at the next token: a terminal in front of the
string has to match it, a nonterminal in front is replaced by the production that the table has for it
and the token's kind. Past the last token the machine sees end markers, as many as it asks for.

`Config.next` is one step and `run` repeats it. A machine of a grammar that mentions the end marker in
its productions may step for ever, so `run` takes a limit on the number of steps; `parse` gives it one
that no machine reaches which stops.
-/

namespace Predictive
variable {T : Type} [Terminal T]

/-- What the machine sees of its input: the next token's kind and text and where it begins. -/
structure Lookahead (T : Type) where
  kind : T
  lexeme : String
  position : Point
deriving DecidableEq, Repr

/-- A step of a leftmost derivation. -/
inductive Step (g : Grammar T) where
  /-- The terminal in front is the next token. -/
  | matched (token : Lookahead T)
  /-- The nonterminal in front is replaced by its production. -/
  | expanded (production : g.Production)
deriving DecidableEq

def Step.describe {g : Grammar T} : Step g → String
  | matched token => s!"match {Terminal.name token.kind} {Text.quote token.lexeme}"
  | expanded production => production.describe

/-- Why the machine stops before the end of the input. -/
inductive ParseError (T : Type) where
  /-- No production of the nonterminal is to be used on the token. -/
  | noRule (nonterminal : String) (found : Lookahead T) (expected : List T)
  | unexpectedToken (expected : T) (found : Lookahead T)
  /-- The string is read, and `remaining` tokens other than end markers are left. -/
  | trailingInput (found : Lookahead T) (remaining : Nat)
deriving DecidableEq, Repr

namespace ParseError

def found : ParseError T → Lookahead T
  | noRule _ found _ => found
  | unexpectedToken _ found => found
  | trailingInput found _ => found

def tokenText (t : Lookahead T) : String := s!"{Terminal.name t.kind} {Text.quote t.lexeme}"

def message (e : ParseError T) : String :=
  s!"{e.found.position}: " ++
    match e with
    | noRule nonterminal found expected =>
      s!"unexpected {tokenText found} while expanding `{nonterminal}`, expected one of: " ++
        ", ".intercalate (expected.map Terminal.name)
    | unexpectedToken expected found =>
      s!"expected {Terminal.name expected}, found {tokenText found}"
    | trailingInput found remaining =>
      s!"input not fully consumed, {remaining} token(s) left starting with {tokenText found}"

end ParseError

/-- The machine between two steps: the string to derive, the tokens not yet matched, and the point of
the end markers assumed after them. -/
structure Config (g : Grammar T) where
  stack : g.Form
  rest : List (Token T)
  close : Point
deriving DecidableEq

/-- What one step leads to. -/
inductive Move (g : Grammar T) where
  /-- The machine stops, with an error unless it has read everything. -/
  | stop (error : Option (ParseError T))
  /-- The machine goes on; dropping an epsilon is no step of a derivation. -/
  | go (step : Option (Step g)) (config : Config g)

/-- The end of the last token, where end markers are assumed. -/
def closingPoint (tokens : List (Token T)) : Point :=
  match tokens.getLast? with
  | some t => t.span.last
  | none => .start

/-- The string that replaces the production's left-hand side. -/
def Grammar.Production.expansion {g : Grammar T} (p : g.Production) : g.Form :=
  if p.IsEpsilon then [] else p.right

namespace Config
variable {g : Grammar T}

/-- The machine before its first step: the start symbol and the end marker are to be derived. -/
def start (g : Grammar T) (tokens : List (Token T)) : Config g :=
  ⟨[.nonterminal g.start, .terminal Terminal.endMarker], tokens, closingPoint tokens⟩

/-- The next token, or an end marker if there is none. -/
def lookahead (c : Config g) : Lookahead T :=
  match c.rest with
  | t :: _ => ⟨t.kind, t.lexeme, t.position⟩
  | [] => ⟨Terminal.endMarker, "", c.close⟩

/-- The error of input that nothing is left to derive. -/
def trailing (c : Config g) : ParseError T :=
  .trailingInput c.lookahead (c.rest.countP fun t => decide (t.kind ≠ Terminal.endMarker))

def next (table : Table g) (c : Config g) : Move g :=
  match c.stack with
  | [] => .stop (if c.rest.isEmpty then none else some c.trailing)
  | .terminal t :: below =>
    if t = c.lookahead.kind then
      .go (some (.matched c.lookahead)) { c with stack := below, rest := c.rest.tail }
    else if t = Terminal.endMarker then .stop (some c.trailing)
    else .stop (some (.unexpectedToken t c.lookahead))
  | .nonterminal x :: below =>
    match table.get? x c.lookahead.kind with
    | some p => .go (some (.expanded p)) { c with stack := p.expansion ++ below }
    | none => .stop (some (.noRule (g.name x) c.lookahead (table.expected x)))
  | .epsilon :: below => .go none { c with stack := below }

/-- What the machine is about to do, unless it has nothing left to derive. -/
def sighting (c : Config g) : Option String :=
  c.stack.head?.map fun top =>
    s!"top {g.symbolName top} lookahead {Terminal.name c.lookahead.kind} at {c.lookahead.position}"

end Config

/-- The steps up to where the machine stopped, and the error that stopped it, if one did. -/
structure ParseResult (g : Grammar T) where
  derivation : List (Step g)
  error : Option (ParseError T)
deriving DecidableEq

namespace Table
variable {g : Grammar T}

/-- The result of running from `c`, unless more than `limit` steps are needed. -/
def run (table : Table g) : (limit : Nat) → Config g → Option (ParseResult g)
  | 0, _ => none
  | limit + 1, c =>
    match c.next table with
    | .stop error => some ⟨[], error⟩
    | .go step c =>
      match table.run limit c with
      | none => none
      | some result => some { result with derivation := step.toList ++ result.derivation }

theorem run_of_le {table : Table g} {limit limit' : Nat} {c : Config g} {result : ParseResult g}
    (h : table.run limit c = some result) (hle : limit ≤ limit') :
    table.run limit' c = some result := by
  induction limit generalizing limit' c result with
  | zero => simp [run] at h
  | succ limit ih =>
    obtain ⟨limit', rfl⟩ : ∃ m, limit' = m + 1 := ⟨limit' - 1, by omega⟩
    unfold run at h ⊢
    cases hnext : c.next table with
    | stop error => simpa [hnext] using h
    | go step c' =>
      rw [hnext] at h
      dsimp only at h ⊢
      cases hrun : table.run limit c' with
      | none => simp [hrun] at h
      | some result' =>
        rw [ih hrun (Nat.le_of_succ_le_succ hle)]
        simpa [hrun] using h

/-- What the machine saw before each of its first `limit` steps. -/
def sightings (table : Table g) : (limit : Nat) → Config g → List String
  | 0, _ => []
  | limit + 1, c =>
    c.sighting.toList ++
      match c.next table with
      | .stop _ => []
      | .go _ c => table.sightings limit c

end Table

def Grammar.longest {T : Type} (g : Grammar T) : Nat :=
  (g.productions.map (·.right.length)).foldl max 0

/-- More steps than any machine of `g` takes that stops on `count` tokens: between two matches only
nullable nonterminals and those on the way to the next match are replaced, none of them twice on one
branch. -/
def Grammar.stepLimit {T : Type} (g : Grammar T) (count : Nat) : Nat :=
  (count + 2) * Nat.pow (g.longest + 2) (4 * g.size + 8)

/-- The result of the table's machine on the tokens, unless the machine never stops. -/
def Table.parse {g : Grammar T} (table : Table g) (tokens : List (Token T)) :
    Option (ParseResult g) :=
  table.run (g.stepLimit tokens.length) (.start g tokens)

/-- The table's machine stops on the tokens, with the given result. -/
def Table.Stops {g : Grammar T} (table : Table g) (tokens : List (Token T))
    (result : ParseResult g) : Prop :=
  ∃ limit, table.run limit (.start g tokens) = some result

theorem Table.stops_of_parse {g : Grammar T} {table : Table g} {tokens : List (Token T)}
    {result : ParseResult g} (h : table.parse tokens = some result) : table.Stops tokens result :=
  ⟨_, h⟩

theorem Table.Stops.unique {g : Grammar T} {table : Table g} {tokens : List (Token T)}
    {result result' : ParseResult g} (h : table.Stops tokens result)
    (h' : table.Stops tokens result') : result = result' := by
  obtain ⟨n, hn⟩ := h
  obtain ⟨m, hm⟩ := h'
  have left := Table.run_of_le hn (Nat.le_max_left n m)
  rw [Table.run_of_le hm (Nat.le_max_right n m)] at left
  exact (Option.some.inj left).symm

def Table.trace {g : Grammar T} (table : Table g) (tokens : List (Token T)) : List String :=
  table.sightings (g.stepLimit tokens.length) (.start g tokens)

end Predictive
