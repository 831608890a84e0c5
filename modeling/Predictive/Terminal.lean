/-!
# Terminals

A terminal is a kind of token. What the library needs of a type of terminals: a total order, by which
sets and tables list them, a name for each, the reading of a name, and one terminal that marks the end
of the input.
-/

namespace Predictive

/-- A totally ordered type of token kinds with names and an end marker. `ofName?` need not know every
name that `name` gives. -/
class Terminal (T : Type) extends Ord T, Std.TransOrd T, Std.LawfulEqOrd T where
  decEq : DecidableEq T
  endMarker : T
  name : T → String
  ofName? : String → Option T

namespace Terminal
variable {T : Type} [Terminal T]

instance (priority := low) : DecidableEq T := decEq

end Terminal

end Predictive
