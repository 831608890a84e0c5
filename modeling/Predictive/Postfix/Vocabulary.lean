import Predictive.Postfix.Kind

/-!
# How tokens are written

What the tokens of each kind are written as: an operator or a parenthesis, a word with a meaning of its own,
or either. Numbers and identifiers have no spelling of their own, and the end marker is not written.
-/

namespace Predictive.Postfix.Kind

/-- The operator or the parenthesis of the kind. -/
def symbol? : Kind → Option String
  | openParen => some "("
  | closeParen => some ")"
  | plus => some "+"
  | minus => some "-"
  | times => some "*"
  | realDivide => some "|"
  | integerDivide => some "/"
  | modulo => some "%"
  | power => some "^"
  | less => some "<"
  | lessEqual => some "<="
  | greater => some ">"
  | greaterEqual => some ">="
  | equal => some "=="
  | notEqual => some "!="
  | and => some "&&"
  | or => some "||"
  | not => some "!"
  | forLoop | whileLoop | ifElse | res | number | identifier | endOfInput => none

/-- The word of the kind. -/
def keyword? : Kind → Option String
  | and => some "AND"
  | or => some "OR"
  | not => some "NOT"
  | forLoop => some "FOR"
  | whileLoop => some "WHILE"
  | ifElse => some "IFELSE"
  | res => some "RES"
  | _ => none

variable {spelling? : Kind → Option String} {s : String} {k : Kind}

/-- The kind that is written `s`, where `spelling?` gives the spellings. -/
def spelled? (spelling? : Kind → Option String) (s : String) : Option Kind :=
  all.find? (spelling? · = some s)

theorem of_spelled? (h : spelled? spelling? s = some k) : spelling? k = some s := by
  simpa using List.find?_some h

theorem spelled?_eq_none_iff : spelled? spelling? s = none ↔ ∀ k, spelling? k ≠ some s := by
  simp [spelled?, mem_all]

end Predictive.Postfix.Kind
