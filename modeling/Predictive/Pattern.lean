import Predictive.Pattern.CharClass
import Predictive.Text.Word

/-!
# Patterns

Regular expressions that are matched with preferences: the left side of an alternative is preferred to
the right one, and, unless it is lazy, another round of a repetition to its end.

`concat` and `alternation` put sequences and alternatives together in normal form. Sequences are nested
to the right, without empty parts and with neighbouring literals joined; so are alternatives, and those
of single characters become a class. Parts that all alternatives begin with come before the choice, so
that `a?bc|a?d` means `a?(?:bc|d)`. This is part of the meaning: how the common part is matched is
decided before the alternative is.
-/

namespace Predictive

/-- Conditions on a place between characters. -/
inductive Look where
  | textStart
  | textEnd
  | wordStart
  | wordEnd
deriving DecidableEq, Repr

/-- Whether the condition holds between the characters `before` and `after`, `none` at an end of the
text. -/
def Look.holds (before after : Option Char) : Look → Bool
  | textStart => before.isNone
  | textEnd => after.isNone
  | wordStart => !before.any Text.isWord && after.any Text.isWord
  | wordEnd => before.any Text.isWord && !after.any Text.isWord

/-- How many rounds a repetition may make. -/
inductive Rounds where
  | anyNumber
  | atLeastOne
  | atMostOne
deriving DecidableEq, Repr

/-- A kind of repetition; a lazy one prefers to end. -/
structure Repetition where
  rounds : Rounds
  lazily : Bool
deriving DecidableEq, Repr

inductive Pattern where
  | empty
  /-- The characters one after the other. -/
  | literal (s : List Char)
  | one (k : CharClass)
  | look (l : Look)
  | seq (p q : Pattern)
  | alt (p q : Pattern)
  | repeated (r : Repetition) (p : Pattern)
  /-- A group with a number, which nothing outside is joined with. -/
  | group (number : Nat) (p : Pattern)
deriving DecidableEq, Repr

namespace Pattern

/-- As many rounds of `p` as there are. -/
def star (p : Pattern) : Pattern := .repeated ⟨.anyNumber, false⟩ p

/-- At least one round of `p`. -/
def plus (p : Pattern) : Pattern := .repeated ⟨.atLeastOne, false⟩ p

/-- The pattern `p` at the start of the text only. -/
def front (p : Pattern) : Pattern := .seq (.look .textStart) p

/-- A character of the class; a class of one character is a literal. -/
def ofClass (k : CharClass) : Pattern :=
  match k.ranges with
  | [(lo, hi)] => if lo = hi then .literal [Char.ofNat lo] else .one k
  | _ => .one k

/-! ## Sequences -/

/-- The parts of a sequence. -/
def parts : Pattern → List Pattern
  | .empty => []
  | .seq p q => p.parts ++ q.parts
  | p => [p]

/-- The parts with neighbouring literals joined. -/
def joinLiterals : List Pattern → List Pattern
  | [] => []
  | .literal s :: ps =>
    match joinLiterals ps with
    | .literal t :: qs => .literal (s ++ t) :: qs
    | qs => .literal s :: qs
  | p :: ps => p :: joinLiterals ps

def ofParts : List Pattern → Pattern
  | [] => .empty
  | [p] => p
  | p :: ps => .seq p (ofParts ps)

/-- The patterns one after the other. -/
def concat (ps : List Pattern) : Pattern := ofParts (joinLiterals (ps.flatMap parts))

/-! ## Alternatives -/

/-- The alternatives of a pattern. -/
def branches : Pattern → List Pattern
  | .alt p q => p.branches ++ q.branches
  | p => [p]

def ofBranches (p : Pattern) : List Pattern → Pattern
  | [] => p
  | q :: qs => .alt p (ofBranches q qs)

/-- The class of a literal of one character. -/
def ofLiteral? : Pattern → Option CharClass
  | .literal [c] => some (.single c)
  | _ => none

def ofOne? : Pattern → Option CharClass
  | .one k => some k
  | _ => none

/-- One of the patterns, the first ones preferred; a class if each of them is a single character, or
each of them a class. -/
def choice (p : Pattern) (ps : List Pattern) : Pattern :=
  let ps := (p :: ps).flatMap branches
  match ps.mapM ofLiteral?, ps.mapM ofOne? with
  | some ks, _ => ofClass (CharClass.normal ⟨ks.flatMap (·.ranges)⟩)
  | none, some ks => ofClass (CharClass.normal ⟨ks.flatMap (·.ranges)⟩)
  | none, none =>
    match ps with
    | [] => p
    | p :: ps => ofBranches p ps

/-- The longest list that both lists begin with. -/
def commonFront : List Pattern → List Pattern → List Pattern
  | p :: ps, q :: qs => if p = q then p :: commonFront ps qs else []
  | _, _ => []

/-- What all sequences begin with, if none of them is a single part. -/
def sharedParts (p : Pattern) (ps : List Pattern) : List Pattern :=
  if (p :: ps).all (1 < ·.parts.length) then ps.foldl (fun ps q => commonFront ps q.parts) p.parts
  else []

/-- The alternatives `p` and `ps`, after the parts that they all begin with. -/
def alternation (p : Pattern) (ps : List Pattern) : Pattern :=
  match (p :: ps).flatMap branches with
  | [] => p
  | p :: ps =>
    let shared := sharedParts p ps
    let rest (q : Pattern) : Pattern := concat (q.parts.drop shared.length)
    if shared.isEmpty then choice p ps else concat (shared ++ [choice (rest p) (ps.map rest)])

end Pattern

end Predictive
