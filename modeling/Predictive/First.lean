import Predictive.Grammar
import Predictive.Saturation
import Predictive.Terminal.Set

/-!
# FIRST sets

FIRST of a string holds the terminals that can begin what it derives, and says whether it derives the
empty string. The sets of the nonterminals are found by passes over the productions that update the
sets in place: a production sees what the productions before it added in the same pass.
-/

namespace Predictive

/-- The terminals that can come first, and whether nothing at all can come. -/
structure FirstSet (T : Type) [Terminal T] where
  terminals : TerminalSet T
  nullable : Bool
deriving DecidableEq

namespace FirstSet
variable {T : Type} [Terminal T]

def empty : FirstSet T := ⟨.empty, false⟩

def union (a b : FirstSet T) : FirstSet T :=
  ⟨a.terminals.union b.terminals, a.nullable || b.nullable⟩

end FirstSet

/-- A FIRST set for every nonterminal of the grammar. -/
abbrev FirstSets {T : Type} [Terminal T] (g : Grammar T) := Vector (FirstSet T) g.size

/-- The number of symbols in all alternatives. -/
def Grammar.volume {T : Type} (g : Grammar T) : Nat := (g.productions.flatMap (·.right)).length

namespace FirstSets
variable {T : Type} [Terminal T] {g : Grammar T}

def empty (g : Grammar T) : FirstSets g := Vector.replicate g.size .empty

def of (F : FirstSets g) (x : g.Nonterminal) : FirstSet T := F.get x

/-- FIRST of a string, by the sets of its nonterminals. The empty string is nullable. -/
def ofForm (F : FirstSets g) : g.Form → FirstSet T
  | [] => ⟨.empty, true⟩
  | .terminal t :: _ => ⟨.singleton t, false⟩
  | .nonterminal x :: rest =>
    let first := of F x
    if first.nullable then
      let more := ofForm F rest
      ⟨first.terminals.union more.terminals, more.nullable⟩
    else ⟨first.terminals, false⟩
  | .epsilon :: rest => ofForm F rest

/-- The sets with FIRST of the right-hand side of `p` added to its nonterminal's, unless it is part of
that. -/
def absorb? (F : FirstSets g) (p : g.Production) : Option (FirstSets g) :=
  let old := F.of p.left
  let new := old.union (F.ofForm p.right)
  if new = old then none else some (F.set p.left new)

/-- One pass over the productions, and whether some set grew. -/
def grow (F : FirstSets g) : FirstSets g × Bool := sweep absorb? g.productions F

/-- No set can grow in more passes: each pass but the last adds a terminal of the grammar to a set or
makes a nonterminal nullable. -/
def passLimit (g : Grammar T) : Nat := g.size * (g.volume + 1) + 1

def saturate (F : FirstSets g) : Saturated (FirstSets g) := Predictive.saturate grow (passLimit g) F

end FirstSets

/-- The FIRST sets of the grammar, and the number of passes that found them. -/
def Grammar.first {T : Type} [Terminal T] (g : Grammar T) : Saturated (FirstSets g) :=
  (FirstSets.empty g).saturate

end Predictive
