import Predictive.Grammar.Rules
import Predictive.Machine
import Predictive.Postfix.Kind

/-!
# The grammar of the postfix language

A program is one line or more, and a line is an expression or a control form in parentheses. The
alternatives are factored to the left, so that the next token always decides between them:
`AfterNumber`, `AfterIdentifier` and `AfterGroup` are what an expression can go on with after its first
operand, and the operator and the variable that takes the result come last.
-/

namespace Predictive.Postfix
open Predictive.Symbol Kind

/-- The rules of a nonterminal with the given alternatives. -/
def define (left : String) (alternatives : List (List (Symbol Kind String))) : List (Rule Kind) :=
  alternatives.map (⟨left, ·⟩)

/-- An expression in parentheses. -/
def group : List (Symbol Kind String) :=
  [terminal openParen, nonterminal "Expression", terminal closeParen]

/-- A number in parentheses. -/
def bound : List (Symbol Kind String) := [terminal openParen, terminal number, terminal closeParen]

/-- Each kind as an alternative of its own. -/
def oneOf (kinds : List Kind) : List (List (Symbol Kind String)) := kinds.map ([terminal ·])

def rules : List (Rule Kind) :=
  define "Program" [[nonterminal "Line", nonterminal "MoreLines"]] ++
  define "MoreLines" [[nonterminal "Line", nonterminal "MoreLines"], [epsilon]] ++
  define "Line" [[terminal openParen, nonterminal "Content", terminal closeParen]] ++
  define "Content" [
    [nonterminal "Expression"],
    [terminal forLoop, nonterminal "ForLoop"],
    [terminal whileLoop, nonterminal "WhileLoop"],
    [terminal ifElse, nonterminal "Conditional"]] ++
  define "Expression" [
    [terminal number, nonterminal "AfterNumber"],
    [terminal identifier, nonterminal "AfterIdentifier"],
    group ++ [nonterminal "AfterGroup"]] ++
  define "Operand" [[terminal number], [terminal identifier], group] ++
  define "AfterNumber" [
    [nonterminal "Operand", nonterminal "Operation"], [terminal res], [epsilon]] ++
  define "AfterIdentifier" [[nonterminal "Operand", nonterminal "Operation"], [epsilon]] ++
  define "AfterGroup" [
    [nonterminal "Operand", nonterminal "Operation"], [terminal not], [epsilon]] ++
  define "Operation" [[nonterminal "Operator", nonterminal "Target"], [epsilon]] ++
  define "Target" [[terminal identifier], [epsilon]] ++
  define "Operator" [
    [nonterminal "ArithmeticOp"], [nonterminal "ComparisonOp"], [nonterminal "LogicalOp"]] ++
  define "ArithmeticOp"
    (oneOf [plus, minus, times, realDivide, integerDivide, modulo, power]) ++
  define "ComparisonOp" (oneOf [less, greater, equal, lessEqual, greaterEqual, notEqual]) ++
  define "LogicalOp" (oneOf [and, or, not]) ++
  define "ForLoop" [
    bound ++ bound ++ bound ++ [nonterminal "Line"],
    [terminal number, terminal number, terminal identifier, nonterminal "Line"]] ++
  define "WhileLoop" [group ++ [nonterminal "Line"]] ++
  define "Conditional" [group ++ [nonterminal "Line", nonterminal "Line"]]

theorem eq_ok_get {ε α : Type} {e : Except ε α} (h : e.toOption.isSome) :
    e = .ok (e.toOption.get h) := by
  cases e with
  | error e => simp [Except.toOption] at h
  | ok a => rfl

/-- The rules make a grammar. -/
theorem isSome_ofRules : (Grammar.ofRules "Program" rules).toOption.isSome := by decide +kernel

/-- The grammar of the language. -/
def grammar : Grammar Kind := (Grammar.ofRules "Program" rules).toOption.get isSome_ofRules

theorem ofRules_eq_ok : Grammar.ofRules "Program" rules = .ok grammar := eq_ok_get isSome_ofRules

/-- The grammar is LL(1). -/
theorem isSome_ofGrammar : (Table.ofGrammar grammar).toOption.isSome := by decide +kernel

/-- The parsing table of the language. -/
def table : Table grammar := (Table.ofGrammar grammar).toOption.get isSome_ofGrammar

theorem ofGrammar_eq_ok : Table.ofGrammar grammar = .ok table := eq_ok_get isSome_ofGrammar

/-- The result of the language's machine on the tokens. -/
def parse (tokens : List (Token Kind)) : Option (ParseResult grammar) := table.parse tokens

end Predictive.Postfix
