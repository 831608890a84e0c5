import Predictive.Grammar

/-!
# Grammars from rules

A rule names its symbols. `Grammar.ofRules` numbers the nonterminals by their first appearance on a
left-hand side, resolves the names rule by rule, and refuses lists of rules that make no grammar for a
predictive parser: the error names the first rule at fault.
-/

namespace Predictive

/-- One alternative as its author writes it. No symbols, or only epsilon, is the empty string. -/
structure Rule (T : Type) where
  left : String
  right : List (Symbol T String)
deriving DecidableEq

namespace Rule
variable {T : Type} [Terminal T]

/-- The right-hand side as text, its symbols by name. -/
def describeRight (r : Rule T) : String :=
  " ".intercalate (r.right.map fun
    | .terminal t => Terminal.name t
    | .nonterminal name => name
    | .epsilon => "ε")

end Rule

/-- Why a line of a written grammar makes no rule. -/
inductive LineFault where
  /-- The line begins with `|` and no rule stands before it. -/
  | orphan
  | noArrow
  /-- The text before the arrow is not one word. -/
  | badLeft (left : String)
  | emptyAlternative
deriving DecidableEq, Repr

def LineFault.message : LineFault → String
  | orphan => "alternative without a rule to attach to"
  | noArrow => "expected `->`"
  | badLeft left => s!"invalid left-hand side `{left}`"
  | emptyAlternative => "empty alternative, write EPSILON for the empty production"

/-- Why rules make no grammar. -/
inductive GrammarError (T : Type) where
  | line (number : Nat) (fault : LineFault)
  | noRules
  | undefinedStart (name : String)
  | terminalOnLeft (name : String)
  /-- Epsilon stands beside another symbol. -/
  | misplacedEpsilon (rule : Rule T)
  | unknownSymbol (left name : String)
  | leftRecursion (left : String)
  /-- The nonterminal has the same alternative already. -/
  | duplicate (rule : Rule T)
deriving DecidableEq

def GrammarError.message {T : Type} [Terminal T] : GrammarError T → String
  | line number fault => s!"line {number}: {fault.message}"
  | noRules => "the grammar has no rules"
  | undefinedStart name => s!"start symbol `{name}` has no rules"
  | terminalOnLeft name => s!"terminal `{name}` cannot be the left-hand side of a rule"
  | misplacedEpsilon rule =>
    s!"epsilon must be alone in its production: `{rule.left} -> {rule.describeRight}`"
  | unknownSymbol left name => s!"unknown symbol `{name}` in a rule for `{left}`"
  | leftRecursion left => s!"`{left}` is directly left-recursive"
  | duplicate rule => s!"`{rule.left} -> {rule.describeRight}` is listed twice"

namespace Grammar
variable {T : Type} [Terminal T]

/-- The names that the rules define, each once, in the order of their first rules. -/
def definedNames (rules : List (Rule T)) : List String := (rules.map (·.left)).eraseDups

omit [Terminal T] in
theorem left_mem_definedNames {rules : List (Rule T)} {r : Rule T} (h : r ∈ rules) :
    r.left ∈ definedNames rules :=
  List.mem_eraseDups.2 (List.mem_map.2 ⟨r, h, rfl⟩)

section Resolve
variable {names : List String}

/-- A symbol with its nonterminal numbered, or the name that is not defined. -/
def resolveSymbol (names : List String) :
    Symbol T String → Except String (Symbol T (Fin names.length))
  | .terminal t => .ok (.terminal t)
  | .nonterminal name =>
    match names.finIdxOf? name with
    | some x => .ok (.nonterminal x)
    | none => .error name
  | .epsilon => .ok .epsilon

/-- The symbols in order; the first undefined name is the error. -/
def resolveSymbols (names : List String) :
    List (Symbol T String) → Except String (List (Symbol T (Fin names.length)))
  | [] => .ok []
  | s :: right =>
    match resolveSymbol names s with
    | .error name => .error name
    | .ok s =>
      match resolveSymbols names right with
      | .error name => .error name
      | .ok right => .ok (s :: right)

/-- The right-hand side of a rule with its nonterminals numbered. -/
def resolveRight (names : List String) (r : Rule T) :
    Except (GrammarError T) (List (Symbol T (Fin names.length))) :=
  if r.right.all (· = .epsilon) then .ok [.epsilon]
  else if r.right.contains .epsilon then .error (.misplacedEpsilon r)
  else match resolveSymbols names r.right with
    | .error name => .error (.unknownSymbol r.left name)
    | .ok right => .ok right

/-- A nonterminal with one of its alternatives. -/
abbrev Resolved (T : Type) (names : List String) :=
  Fin names.length × List (Symbol T (Fin names.length))

/-- The rule as an alternative of its nonterminal `x`, where `earlier` are the alternatives of the
rules before it. -/
def resolveRule (names : List String) (earlier : List (Resolved T names)) (x : Fin names.length)
    (r : Rule T) : Except (GrammarError T) (Resolved T names) :=
  match resolveRight names r with
  | .error e => .error e
  | .ok right =>
    if right.head? = some (.nonterminal x) then .error (.leftRecursion r.left)
    else if earlier.contains (x, right) then .error (.duplicate r)
    else .ok (x, right)

/-- The alternatives of all rules, in order. -/
def resolveRules (names : List String) (earlier : List (Resolved T names)) :
    (rules : List (Rule T)) → (∀ r ∈ rules, r.left ∈ names) →
    Except (GrammarError T) (List (Resolved T names))
  | [], _ => .ok earlier
  | r :: rules, defined =>
    let x : Fin names.length :=
      ⟨names.idxOf r.left, List.idxOf_lt_length_of_mem (defined r (List.mem_cons_self ..))⟩
    match resolveRule names earlier x r with
    | .error e => .error e
    | .ok found =>
      resolveRules names (earlier ++ [found]) rules fun r h => defined r (List.mem_cons_of_mem _ h)

end Resolve

/-- The grammar of the rules, whose start symbol is named `start`. -/
def ofRules (start : String) (rules : List (Rule T)) : Except (GrammarError T) (Grammar T) :=
  if rules.isEmpty then .error .noRules
  else match rules.find? (fun r => (Terminal.ofName? r.left : Option T).isSome) with
    | some r => .error (.terminalOnLeft r.left)
    | none =>
      let names := definedNames rules
      match names.finIdxOf? start with
      | none => .error (.undefinedStart start)
      | some start =>
        match resolveRules names [] rules fun _ => left_mem_definedNames with
        | .error e => .error e
        | .ok resolved =>
          .ok {
            size := names.length
            names := ⟨names.toArray, rfl⟩
            alternatives := Vector.ofFn fun x =>
              (resolved.filter (·.1 = x)).map (·.2)
            start }

end Grammar

end Predictive
