import Predictive.Grammar.Rules
import Predictive.Text.Line

/-!
# Written grammars

A grammar is written with one rule a line, `Left -> a b | c d | EPSILON`. A line that begins with `|`
goes on with the rule before it, `#` begins a comment, and blanks separate words. A word that names a
terminal is that terminal, `EPSILON` and `ε` are the empty string, and any other word is a
nonterminal. The first rule defines the start symbol.
-/

namespace Predictive.Grammar
variable {T : Type} [Terminal T]

/-- The symbol that a word stands for. -/
def symbolOfWord (word : String) : Symbol T String :=
  if word = "EPSILON" ∨ word = "ε" then .epsilon
  else match Terminal.ofName? word with
    | some t => .terminal t
    | none => .nonterminal word

/-- The left-hand side that a line's content belongs to and the text of its alternatives, where
`previous` is the left-hand side of the line before. -/
def readLeft (previous : Option String) (content : List Char) :
    Except LineFault (String × List Char) :=
  match content with
  | '|' :: rest =>
    match previous with
    | some left => .ok (left, rest)
    | none => .error .orphan
  | content =>
    match Text.splitArrow content with
    | none => .error .noArrow
    | some (left, rest) =>
      let left := Text.trim left
      if left.isEmpty || left.any Text.isBlank then .error (.badLeft (String.ofList left))
      else .ok (String.ofList left, rest)

/-- The alternatives between the bars, none of which is without words. -/
def readAlternatives (left : String) : List (List Char) → Except LineFault (List (Rule T))
  | [] => .ok []
  | alternative :: alternatives =>
    match Text.words alternative with
    | [] => .error .emptyAlternative
    | words =>
      match readAlternatives left alternatives with
      | .error e => .error e
      | .ok rules => .ok (⟨left, words.map (symbolOfWord <| String.ofList ·)⟩ :: rules)

/-- The left-hand side and the rules of a line's content. -/
def readLine (previous : Option String) (content : List Char) :
    Except LineFault (String × List (Rule T)) :=
  match readLeft previous content with
  | .error e => .error e
  | .ok (left, rest) =>
    match readAlternatives left (Text.split (· == '|') rest) with
    | .error e => .error e
    | .ok rules => .ok (left, rules)

/-- The rules of the lines, the first of which has the given number. -/
def readLines (number : Nat) (previous : Option String) :
    List (List Char) → Except (GrammarError T) (List (Rule T))
  | [] => .ok []
  | line :: lines =>
    match Text.content line with
    | [] => readLines (number + 1) previous lines
    | content =>
      match readLine previous content with
      | .error fault => .error (.line number fault)
      | .ok (left, rules) =>
        match readLines (number + 1) (some left) lines with
        | .error e => .error e
        | .ok more => .ok (rules ++ more)

/-- The grammar that a text writes down. -/
def ofText (text : String) : Except (GrammarError T) (Grammar T) :=
  match readLines 1 none (Text.lines text.toList) with
  | .error e => .error e
  | .ok [] => .error .noRules
  | .ok (first :: rules) => ofRules first.left (first :: rules)

/-- A symbol as a word of a written grammar. -/
def symbolWord (g : Grammar T) : Symbol T g.Nonterminal → String
  | .epsilon => "EPSILON"
  | s => g.symbolName s

/-- The line that defines `x`. -/
def lineOf (g : Grammar T) (x : g.Nonterminal) : String :=
  let alternatives := (g.alternativesOf x).map fun right => " ".intercalate (right.map g.symbolWord)
  s!"{g.name x} -> " ++ " | ".intercalate alternatives ++ "\n"

/-- The grammar written down, one nonterminal a line. -/
def toText (g : Grammar T) : String := String.join (g.nonterminals.map g.lineOf)

end Predictive.Grammar
