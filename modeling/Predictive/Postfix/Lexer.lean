import Predictive.Lexer
import Predictive.Postfix.Kind

/-!
# The lexer of the postfix language

Operators are read as they are written, a word begins with an upper-case letter, a number with a digit,
and blanks separate tokens. The longest match decides, so `>=` is one operator.
-/

namespace Predictive.Postfix

/-- The upper-case letters of the ASCII range. -/
def upperCase : CharClass := .range 'A' 'Z'

def digit : CharClass := .range '0' '9'

/-- The characters of a word after its first letter. -/
def wordTail (separators : List Char) : CharClass :=
  ⟨upperCase.ranges ++ separators.map fun c => (c.toNat, c.toNat)⟩

/-- Digits and decimal points. -/
def numberTail : CharClass := digit.append (.single '.')

/-- The rules for words with the given separators, numbers and blanks. -/
def wordRule (separators : List Char) : LexerRule Kind :=
  .ofPattern (.front (.seq (.one upperCase) (.star (.one (wordTail separators)))))
    (some <| .ofWord ·)

def numberRule : LexerRule Kind :=
  .ofPattern (.front (.seq (.one digit) (.star (.one numberTail)))) fun _ => some .number

def blankRule : LexerRule Kind := .ofPattern (.front (.plus (.one .blank))) fun _ => none

def operatorRule (spelling : String) : LexerRule Kind :=
  .ofPattern (.front (.literal spelling.toList)) Kind.ofOperator?

/-- The lexer of the language, in which words may contain the given characters. -/
def lexer (separators : List Char) : Lexer Kind :=
  ⟨Kind.operators.map (operatorRule ·.1) ++ [wordRule separators, numberRule, blankRule]⟩

/-- The separators of words unless others are asked for. -/
def defaultSeparators : List Char := ['_']

/-- The tokens of a text by the default lexer. -/
def tokenize (text : String) : Except ScanError (List (Token Kind)) :=
  (lexer defaultSeparators).tokenize text

end Predictive.Postfix
