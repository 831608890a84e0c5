import Predictive.Terminal

/-!
# The terminals of the postfix language

Programs of the language are lines in parentheses in which the operands come first and the operator
last. Operators have one or two characters, `AND`, `OR`, `NOT` and the control words are words in upper
case.
-/

namespace Predictive.Postfix

/-- The kinds of tokens. The division `|` is over the reals, `/` over the integers. -/
inductive Kind where
  | openParen
  | closeParen
  | plus
  | minus
  | times
  | realDivide
  | integerDivide
  | modulo
  | power
  | less
  | greater
  | lessEqual
  | greaterEqual
  | equal
  | notEqual
  | and
  | or
  | not
  | forLoop
  | whileLoop
  | ifElse
  /-- The result of an earlier line. -/
  | res
  | number
  | identifier
  | endOfInput
deriving DecidableEq, Repr

namespace Kind

/-- Every kind, in order. -/
def all : List Kind :=
  [openParen, closeParen, plus, minus, times, realDivide, integerDivide, modulo, power, less, greater,
    lessEqual, greaterEqual, equal, notEqual, and, or, not, forLoop, whileLoop, ifElse, res, number,
    identifier, endOfInput]

def name : Kind → String
  | openParen => "OPEN_PAREN"
  | closeParen => "CLOSE_PAREN"
  | plus => "PLUS"
  | minus => "MINUS"
  | times => "TIMES"
  | realDivide => "REAL_DIVIDE"
  | integerDivide => "INTEGER_DIVIDE"
  | modulo => "MODULO"
  | power => "POWER"
  | less => "LESS"
  | greater => "GREATER"
  | lessEqual => "LESS_EQUAL"
  | greaterEqual => "GREATER_EQUAL"
  | equal => "EQUAL"
  | notEqual => "NOT_EQUAL"
  | and => "AND"
  | or => "OR"
  | not => "NOT"
  | forLoop => "FOR"
  | whileLoop => "WHILE"
  | ifElse => "IFELSE"
  | res => "RES"
  | number => "NUMBER"
  | identifier => "IDENTIFIER"
  | endOfInput => "END_OF_INPUT"

def ofName? (s : String) : Option Kind := all.find? (·.name = s)

/-- The operators and parentheses as they are written. -/
def operators : List (String × Kind) :=
  [("(", openParen), (")", closeParen), ("+", plus), ("-", minus), ("*", times), ("|", realDivide),
    ("/", integerDivide), ("%", modulo), ("^", power), ("<", less), (">", greater), ("<=", lessEqual),
    (">=", greaterEqual), ("==", equal), ("!=", notEqual), ("&&", and), ("||", or), ("!", not)]

/-- The words with a meaning of their own. -/
def keywords : List (String × Kind) :=
  [("AND", and), ("OR", or), ("NOT", not), ("FOR", forLoop), ("WHILE", whileLoop), ("IFELSE", ifElse),
    ("RES", res)]

/-- The kind of the operator that is written `s`. -/
def ofOperator? (s : String) : Option Kind := operators.lookup s

/-- The kind of a word: a keyword's, or an identifier. -/
def ofWord (s : String) : Kind := (keywords.lookup s).getD identifier

theorem mem_all (k : Kind) : k ∈ all := by cases k <;> decide

instance : Ord Kind := ⟨compareOn Kind.ctorIdx⟩

instance : Std.TransOrd Kind := inferInstanceAs (Std.TransCmp (compareOn Kind.ctorIdx))

theorem eq_of_ctorIdx_eq {j k : Kind} (h : j.ctorIdx = k.ctorIdx) : j = k := by
  rw [← Kind.ofNat_ctorIdx j, h, Kind.ofNat_ctorIdx]

instance : Std.LawfulEqOrd Kind where
  compare_self := Nat.compare_eq_eq.2 rfl
  eq_of_compare h := eq_of_ctorIdx_eq (Nat.compare_eq_eq.1 h)

instance : Terminal Kind where
  decEq := inferInstance
  endMarker := endOfInput
  name := name
  ofName? := ofName?

theorem endMarker_eq : (Terminal.endMarker : Kind) = endOfInput := rfl

end Kind

end Predictive.Postfix
