import Predictive.Terminal
import Predictive.Text.Point

/-!
# Tokens

A token is a terminal with the text it was read from and the place of that text.
-/

namespace Predictive

/-- A piece of a text, classified. The end marker's lexeme is empty. -/
structure Token (T : Type) where
  kind : T
  lexeme : String
  span : Span
deriving DecidableEq, Repr

namespace Token
variable {T : Type}

/-- Where the token begins. -/
def position (t : Token T) : Point := t.span.first

/-- The end marker at the point `p`. -/
def atEnd [Terminal T] (p : Point) : Token T := ⟨Terminal.endMarker, "", .single p⟩

end Token

end Predictive
