import Predictive.Pattern.Reader
import Predictive.Postfix.Lexer

/-!
# The rules of the lexer as they are written

Operators and separators can be marks with a meaning in patterns, so they are quoted. A word goes on with
upper-case letters and separators, which are alternatives.
-/

namespace Predictive

namespace Pattern

/-- The marks that are quoted. Some of them have a meaning in classes only. -/
def quotedMarks : List Char :=
  ['\x5c', '.', '+', '*', '?', '(', ')', '|', '[', ']', '\x7b', '\x7d', '^', '$', '#', '&', '-', '~']

def quoteChar (c : Char) : List Char := if c ∈ quotedMarks then ['\x5c', c] else [c]

/-- What is written for the text itself. -/
def quote (text : String) : String := String.ofList (text.toList.flatMap quoteChar)

end Pattern

/-- The lexer with rules that are written down, if all of them can be read. -/
def Lexer.ofTexts? {T : Type} (rules : List (String × (String → Option T))) : Option (Lexer T) :=
  (rules.mapM fun r => (Pattern.ofContent? r.1).map (LexerRule.ofPattern · r.2)).map (⟨·⟩)

namespace Postfix

def wordText (separators : List Char) : String :=
  "[A-Z](?:" ++ "|".intercalate ("[A-Z]" :: separators.map (Pattern.quote ·.toString)) ++ ")*"

/-- The rules as they are written. -/
def ruleTexts (separators : List Char) : List (String × (String → Option Kind)) :=
  Kind.operators.map (fun (spelling, _) => (Pattern.quote spelling, Kind.ofOperator?)) ++
    [(wordText separators, (some <| .ofWord ·)), ("[0-9][0-9.]*", fun _ => some .number),
      ("\x5cs+", fun _ => none)]

end Postfix

end Predictive
