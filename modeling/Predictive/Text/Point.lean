/-!
# Points and spans of a text

A point counts lines and columns from one and bytes of the UTF-8 encoding from zero. Reading a text
moves a point over it character by character, so moving over `s ++ t` is moving over `s`, then `t`
(`Point.advance_append`).
-/

namespace Predictive

/-- A place in a text: line and column start at 1, `index` is the number of bytes before it. -/
structure Point where
  line : Nat
  column : Nat
  index : Nat
deriving DecidableEq, Repr

namespace Point

/-- The point before the first character. -/
def start : Point := ⟨1, 1, 0⟩

/-- A line feed opens the next line at column 1, any other character takes one column. -/
def next (p : Point) (c : Char) : Point :=
  if c = '\n' then ⟨p.line + 1, 1, p.index + c.utf8Size⟩
  else ⟨p.line, p.column + 1, p.index + c.utf8Size⟩

/-- The point reached by reading `text` from `p`. -/
def advance (p : Point) (text : List Char) : Point := text.foldl next p

@[simp] theorem advance_nil (p : Point) : p.advance [] = p := rfl

@[simp] theorem advance_cons (p : Point) (c : Char) (text : List Char) :
    p.advance (c :: text) = (p.next c).advance text := rfl

theorem advance_append (p : Point) (s t : List Char) :
    p.advance (s ++ t) = (p.advance s).advance t := List.foldl_append

theorem index_next (p : Point) (c : Char) : (p.next c).index = p.index + c.utf8Size := by
  unfold next; split <;> rfl

theorem index_lt_index_next (p : Point) (c : Char) : p.index < (p.next c).index := by
  rw [index_next]; have := c.utf8Size_pos; omega

instance : ToString Point where
  toString p := s!"{p.line}:{p.column}"

end Point

/-- A stretch of text from its first to its last character, both included. -/
structure Span where
  first : Point
  last : Point
deriving DecidableEq, Repr

namespace Span

/-- The span that stands for a single point. -/
def single (p : Point) : Span := ⟨p, p⟩

instance : ToString Span where
  toString s := s!"{s.first}->{s.last}"

end Span

end Predictive
