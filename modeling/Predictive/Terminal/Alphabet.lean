import Predictive.Terminal

/-!
# Alphabets given by their names

Terminals that are known only by a list of names: the order is the order of the names and the last
name is the end marker's.
-/

namespace Predictive

/-- `size` ordinary terminals and an end marker, each with a name. -/
structure Alphabet where
  size : Nat
  names : Vector String (size + 1)

namespace Alphabet

/-- A terminal of the alphabet: the position of its name. -/
def Letter (a : Alphabet) : Type := Fin (a.size + 1)

instance (a : Alphabet) : Terminal a.Letter where
  toOrd := inferInstanceAs (Ord (Fin (a.size + 1)))
  toTransCmp := inferInstanceAs (Std.TransOrd (Fin (a.size + 1)))
  toLawfulEqCmp := inferInstanceAs (Std.LawfulEqOrd (Fin (a.size + 1)))
  decEq := inferInstanceAs (DecidableEq (Fin (a.size + 1)))
  endMarker := Fin.last a.size
  name := fun t : Fin (a.size + 1) => a.names[t]
  ofName? := fun name => a.names.finIdxOf? name

/-- The alphabet of a list of names, the last of which names the end marker. -/
def ofNames? (names : List String) : Option Alphabet :=
  match h : names.length with
  | 0 => none
  | size + 1 => some ⟨size, ⟨names.toArray, by simpa using h⟩⟩

end Alphabet

end Predictive
