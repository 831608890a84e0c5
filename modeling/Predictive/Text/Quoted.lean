import Predictive.Text.GraphemeExtend
import Predictive.Text.Unprintable

/-!
# Quoted text

A text between quotes, and a character between apostrophes, with everything that would not show as
itself escaped. Printable ASCII other than the quote in use and the backslash stands for itself.
-/

namespace Predictive.Text

/-- The digits of `n` in base 16, lower case, without leading zeros. -/
def hexDigits (n : Nat) : List Char := Nat.toDigits 16 n

/-- A character as `\u`, its code point in braces. -/
def escapeCode (c : Char) : List Char :=
  '\x5c' :: 'u' :: '\x7b' :: (hexDigits c.toNat ++ ['\x7d'])

/-- One character inside the quotes `quote`. -/
def escape (quote c : Char) : List Char :=
  if c = '\x00' then ['\x5c', '0']
  else if c = '\t' then ['\x5c', 't']
  else if c = '\n' then ['\x5c', 'n']
  else if c = '\r' then ['\x5c', 'r']
  else if c = '\x5c' then ['\x5c', '\x5c']
  else if c = quote then ['\x5c', c]
  else if ' ' ≤ c ∧ c ≤ '~' then [c]
  else if extendsGrapheme c || !isPrintable c then escapeCode c
  else [c]

/-- `s` between two marks, each of its characters escaped. -/
def enclose (mark : Char) (s : List Char) : String :=
  String.ofList (mark :: (s.flatMap (escape mark) ++ [mark]))

/-- The text between double quotes. -/
def quote (s : String) : String := enclose '\x22' s.toList

/-- The character between apostrophes. -/
def quoteChar (c : Char) : String := enclose '\x27' [c]

end Predictive.Text
