import Predictive.Text.Blank

/-!
# Cutting a text at characters

`split` keeps every piece between two separators, the empty ones too, so the pieces joined by a
separator give the text back (`flatten_split`). Words, lines and the text before a comment are cut
with it.
-/

namespace Predictive.Text

/-- The pieces between the characters that satisfy `p`: one more piece than separators. -/
def split (p : Char → Bool) : List Char → List (List Char)
  | [] => [[]]
  | c :: s =>
    if p c then [] :: split p s
    else match split p s with
      | [] => [[c]]
      | piece :: pieces => (c :: piece) :: pieces

theorem split_ne_nil (p : Char → Bool) (s : List Char) : split p s ≠ [] := by
  induction s with
  | nil => simp [split]
  | cons c s ih =>
    by_cases hc : p c
    · simp [split, hc]
    · simp only [split, hc]
      cases split p s <;> simp

/-- What the pieces hold is the text without its separators. -/
theorem flatten_split (p : Char → Bool) (s : List Char) :
    (split p s).flatten = s.filter (fun c => !p c) := by
  induction s with
  | nil => rfl
  | cons c s ih =>
    by_cases hc : p c
    · simp [split, hc, ih]
    · cases h : split p s with
      | nil => exact absurd h (split_ne_nil p s)
      | cons piece pieces => simpa [split, hc, h] using ih

/-- The maximal runs of characters that are not blank. -/
def words (s : List Char) : List (List Char) := (split isBlank s).filter (!·.isEmpty)

/-- A carriage return right before the line feed belongs to the line's end. -/
def dropReturn (line : List Char) : List Char :=
  if line.getLast? = some '\r' then line.dropLast else line

/-- The lines of a text whose pieces between line feeds are given: a last piece is a line only if it
is not empty, and it keeps its carriage return. -/
def linesOfPieces : List (List Char) → List (List Char)
  | [] => []
  | [last] => if last.isEmpty then [] else [last]
  | piece :: pieces => dropReturn piece :: linesOfPieces pieces

/-- The lines of a text. A line feed ends a line, so a text that ends with one has no line after. -/
def lines (s : List Char) : List (List Char) := linesOfPieces (split (· == '\n') s)

/-- What stands before the first `#` of the line. -/
def uncommented (line : List Char) : List Char := line.takeWhile (· != '#')

/-- The line holds nothing but blanks and a comment. -/
def HoldsNothing (line : List Char) : Prop := ∀ c ∈ uncommented line, isBlank c = true

instance (line : List Char) : Decidable (HoldsNothing line) :=
  decidable_of_iff ((uncommented line).all isBlank = true) List.all_eq_true

/-- The part of a line before the first `#`, without the blanks around it. -/
def content (line : List Char) : List Char := trim (line.takeWhile (· != '#'))

/-- What stands before and after the first `->`. -/
def splitArrow : List Char → Option (List Char × List Char)
  | [] => none
  | '-' :: '>' :: s => some ([], s)
  | c :: s => (splitArrow s).map fun cut => (c :: cut.1, cut.2)

end Predictive.Text
