import Predictive.Grammar
import Predictive.Walk

/-!
# Reachable nonterminals

The nonterminals that the start symbol leads to through right-hand sides.
-/

namespace Predictive.Grammar
variable {T : Type} (g : Grammar T)

/-- The nonterminals in the alternatives of `x`. -/
def successors (x : g.Nonterminal) : List g.Nonterminal :=
  (g.alternativesOf x).flatten.filterMap fun
    | .nonterminal y => some y
    | _ => none

/-- The nonterminals that some string derived from the start symbol contains. -/
def reachable : List g.Nonterminal := preorder g.successors [g.start]

/-- The nonterminals that no derivation from the start symbol meets, in order. -/
def unreachable : List g.Nonterminal := g.nonterminals.filter (· ∉ g.reachable)

end Predictive.Grammar
