import Predictive.Terminal

/-!
# Grammars

A grammar numbers its nonterminals from zero and lists the alternatives of each in order. An
alternative is a string of symbols; the empty string is written as the single symbol epsilon. A
nonterminal is a number below the number of nonterminals, so every symbol of a grammar has a name and
alternatives.
-/

namespace Predictive

/-- A symbol, with nonterminals in `N`. Epsilon stands for the empty string. -/
inductive Symbol (T N : Type) where
  | terminal (t : T)
  | nonterminal (x : N)
  | epsilon
deriving DecidableEq, Repr

structure Grammar (T : Type) where
  size : Nat
  names : Vector String size
  alternatives : Vector (List (List (Symbol T (Fin size)))) size
  start : Fin size
deriving DecidableEq

namespace Grammar
variable {T : Type}

abbrev Nonterminal (g : Grammar T) := Fin g.size

/-- Strings of terminals and nonterminals of `g`. -/
abbrev Form (g : Grammar T) := List (Symbol T g.Nonterminal)

def name (g : Grammar T) (x : g.Nonterminal) : String := g.names.get x

def lookup? (g : Grammar T) (name : String) : Option g.Nonterminal := g.names.finIdxOf? name

def nonterminals (g : Grammar T) : List g.Nonterminal := List.finRange g.size

def alternativesOf (g : Grammar T) (x : g.Nonterminal) : List g.Form := g.alternatives.get x

/-- One alternative of one nonterminal. -/
structure Production (g : Grammar T) where
  left : g.Nonterminal
  index : Fin (g.alternativesOf left).length
deriving DecidableEq

def Production.right {g : Grammar T} (p : g.Production) : g.Form :=
  (g.alternativesOf p.left)[p.index]

/-- The production replaces its nonterminal by the empty string. -/
def Production.IsEpsilon {g : Grammar T} (p : g.Production) : Prop := p.right = [.epsilon]

instance [DecidableEq T] {g : Grammar T} (p : g.Production) : Decidable p.IsEpsilon :=
  inferInstanceAs (Decidable (p.right = [.epsilon]))

def productionsOf (g : Grammar T) (x : g.Nonterminal) : List g.Production :=
  (List.finRange (g.alternativesOf x).length).map (⟨x, ·⟩)

/-- Every production: nonterminal by nonterminal, the alternatives of each in order. -/
def productions (g : Grammar T) : List g.Production := g.nonterminals.flatMap g.productionsOf

theorem mem_productionsOf {g : Grammar T} {x : g.Nonterminal} {p : g.Production} :
    p ∈ g.productionsOf x ↔ p.left = x := by
  simp only [productionsOf, List.mem_map, List.mem_finRange, true_and]
  constructor
  · rintro ⟨i, rfl⟩; rfl
  · rintro rfl; exact ⟨p.index, rfl⟩

theorem mem_productions {g : Grammar T} (p : g.Production) : p ∈ g.productions :=
  List.mem_flatMap.2 ⟨p.left, List.mem_finRange p.left, mem_productionsOf.2 rfl⟩

variable [Terminal T]

/-- The name of a symbol; epsilon is shown as its letter. -/
def symbolName (g : Grammar T) : Symbol T g.Nonterminal → String
  | .terminal t => Terminal.name t
  | .nonterminal x => g.name x
  | .epsilon => "ε"

/-- A production as its left-hand side, an arrow, and its symbols. -/
def Production.describe {g : Grammar T} (p : g.Production) : String :=
  s!"{g.name p.left} -> " ++ " ".intercalate (p.right.map g.symbolName)

end Grammar

end Predictive
