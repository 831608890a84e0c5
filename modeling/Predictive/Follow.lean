import Predictive.First

/-!
# FOLLOW sets

FOLLOW of a nonterminal holds the terminals that can come right after it. Where a right-hand side has
the nonterminal before a string, FIRST of the string follows it, and if the string is nullable, so does
all that follows the left-hand side. The end marker follows the start symbol.
-/

namespace Predictive

/-- A FOLLOW set for every nonterminal of the grammar. -/
abbrev FollowSets {T : Type} [Terminal T] (g : Grammar T) := Vector (TerminalSet T) g.size

namespace FollowSets
variable {T : Type} [Terminal T] {g : Grammar T}

/-- Only the start symbol is followed by anything, by the end marker. -/
def initial (g : Grammar T) : FollowSets g :=
  (Vector.replicate g.size TerminalSet.empty).set g.start (.singleton Terminal.endMarker)

def of (W : FollowSets g) (x : g.Nonterminal) : TerminalSet T := W.get x

/-- A nonterminal in a right-hand side, with the left-hand side and the string after it. -/
structure Occurrence (g : Grammar T) where
  left : g.Nonterminal
  symbol : g.Nonterminal
  rest : g.Form

/-- The occurrences in a right-hand side of `left`, from left to right. -/
def occurrencesIn (left : g.Nonterminal) : g.Form → List (Occurrence g)
  | [] => []
  | .nonterminal x :: rest => ⟨left, x, rest⟩ :: occurrencesIn left rest
  | _ :: rest => occurrencesIn left rest

/-- Every occurrence of a nonterminal in a right-hand side, production by production. -/
def occurrences (g : Grammar T) : List (Occurrence g) :=
  g.productions.flatMap fun p => occurrencesIn p.left p.right

def after (F : FirstSets g) (W : FollowSets g) (o : Occurrence g) : TerminalSet T :=
  let first := F.ofForm o.rest
  if first.nullable then first.terminals.union (W.of o.left) else first.terminals

/-- The sets with what follows one occurrence added, unless it is there already. -/
def absorb? (F : FirstSets g) (W : FollowSets g) (o : Occurrence g) : Option (FollowSets g) :=
  let old := W.of o.symbol
  let new := old.union (W.after F o)
  if new = old then none else some (W.set o.symbol new)

/-- One pass over the occurrences, and whether some set grew. -/
def grow (F : FirstSets g) (W : FollowSets g) : FollowSets g × Bool :=
  sweep (absorb? F) (occurrences g) W

/-- No set can grow in more passes: each pass but the last adds to a set the end marker, a terminal of
the grammar, or a terminal of the FIRST sets. -/
def passLimit (F : FirstSets g) : Nat :=
  g.size * (g.volume + (F.toList.flatMap (·.terminals.toList)).length + 1) + 1

def saturate (F : FirstSets g) (W : FollowSets g) : Saturated (FollowSets g) :=
  Predictive.saturate (grow F) (passLimit F) W

end FollowSets

/-- The FOLLOW sets of the grammar by the FIRST sets `F`, and the number of passes that found them. -/
def Grammar.follow {T : Type} [Terminal T] {g : Grammar T} (F : FirstSets g) :
    Saturated (FollowSets g) :=
  (FollowSets.initial g).saturate F

end Predictive
