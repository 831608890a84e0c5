import Mathlib.Data.List.Infix
import Mathlib.Logic.Relation
import Predictive.Text.Line

/-!
# The layout of written grammars

The edits of a written grammar that change how it looks and not what it says: lines without words,
comments, blanks, the line on which an alternative stands, and whether the left-hand side is written again
for it. Two texts are the same but for their layout if such edits, done or undone one after the other, make
one of the other (`SameButForLayout`).
-/

namespace Predictive.Grammar.Layout
open Text

/-- The text is blank. -/
def Blanks (s : List Char) : Prop := ∀ c ∈ s, isBlank c = true

instance (s : List Char) : Decidable (Blanks s) := decidable_of_iff (s.all isBlank = true) List.all_eq_true

/-- The line goes on with the rule before it. -/
def GoesOn (line : List Char) : Prop := ∃ lead rest, Blanks lead ∧ line = lead ++ '|' :: rest

/-- The text can be the front of a line that begins a rule. -/
def Opens (s : List Char) : Prop := ∀ c, s.head? = some c → isBlank c = false ∧ c ≠ '|'

/-- The line begins a rule: `left` is what stands before its first arrow, whether it is a name or not. -/
structure BeginsRule (left line : List Char) : Prop where
  opens : Opens left
  noArrow : ¬ ['-', '>'] <:+: left
  noComment : '#' ∉ left
  eq_arrow : ∃ lead gap rest, Blanks lead ∧ Blanks gap ∧ line = lead ++ (left ++ (gap ++ '-' :: '>' :: rest))

/-- One edit, on the lines that it is about. None of them holds a line feed, so the blanks in them do not
either. -/
inductive Edit : List (List Char) → List (List Char) → Prop
  /-- A line is put in that holds at most a comment. -/
  | line {line : List Char} (h : HoldsNothing line) : Edit [] [line]
  | comment (line comment : List Char) : Edit [line] [line ++ '#' :: comment]
  /-- Blanks between two words are replaced by others. -/
  | blanks (u v : List Char) {r r' : List Char} (hr : Blanks r) (hr' : Blanks r') (hne : r ≠ [])
    (hne' : r' ≠ []) : Edit [u ++ (r ++ v)] [u ++ (r' ++ v)]
  | lead {r : List Char} (hr : Blanks r) (line : List Char) : Edit [line] [r ++ line]
  | trail {r : List Char} (hr : Blanks r) (line : List Char) : Edit [line] [line ++ r]
  /-- A line is broken before a bar behind the arrow of its rule, or behind the bar it begins with. -/
  | breakAt {u : List Char} (hcomment : '#' ∉ u) (hu : GoesOn u ∨ ['-', '>'] <:+: u) (rest : List Char) :
    Edit [u ++ '|' :: rest] [u, '|' :: rest]
  /-- A line that goes on with the rule that begins on `first` is written as one more rule for `left`. -/
  | again {left first lead gap : List Char} {between : List (List Char)} (hfirst : BeginsRule left first)
    (hbetween : ∀ line ∈ between, HoldsNothing line ∨ GoesOn line) (hlead : Blanks lead) (hgap : Blanks gap)
    (rest : List Char) : Edit (first :: (between ++ [lead ++ '|' :: rest]))
      (first :: (between ++ [left ++ (gap ++ '-' :: '>' :: rest)]))

/-- The lines of a text, without the line feeds between them. -/
def linesOf (text : String) : List (List Char) := split (· == '\n') text.toList

/-- One edit in the midst of other lines. -/
def Edited (text text' : String) : Prop :=
  ∃ front old new back, Edit old new ∧ linesOf text = front ++ (old ++ back) ∧
    linesOf text' = front ++ (new ++ back)

/-- One text becomes the other by edits that are done or undone, any number of them. -/
def SameButForLayout : String → String → Prop := Relation.EqvGen Edited

end Predictive.Grammar.Layout
