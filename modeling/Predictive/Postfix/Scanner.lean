import Predictive.Lexer
import Predictive.Postfix.Vocabulary

/-!
# Scanning by the next character

A scanner without patterns: the next character, and for operators the one after it, tell what kind of
piece begins, and the piece then goes on as far as it can. The kinds of operators and words are the ones
that are written so (`Kind.symbol?`, `Kind.keyword?`).
-/

namespace Predictive.Postfix

def isUpperCase (c : Char) : Bool := decide ('A' ≤ c) && decide (c ≤ 'Z')

def isDigit (c : Char) : Bool := decide ('0' ≤ c) && decide (c ≤ '9')

/-- The operator at the front of a text: of two characters if there is one, else of one. -/
def operatorAt : List Char → Option (String × Kind)
  | [] => none
  | [c] => withKind (String.ofList [c])
  | c :: d :: _ => (withKind (String.ofList [c, d])).or (withKind (String.ofList [c]))
where
  withKind (spelling : String) : Option (String × Kind) :=
    (Kind.spelled? Kind.symbol? spelling).map (spelling, ·)

/-- The kind of a word: a keyword's if the whole word is spelled as one, else an identifier. -/
def wordKind (word : List Char) : Kind :=
  (Kind.spelled? Kind.keyword? (String.ofList word)).getD .identifier

/-- The kind of the piece at the front of a text, if it makes a token, and its length. -/
def pieceAt (separators : List Char) (s : List Char) : Option (Option Kind × Nat) :=
  match s with
  | [] => none
  | c :: rest =>
    if isUpperCase c then
      let word := c :: rest.takeWhile fun d => isUpperCase d || separators.contains d
      some (some (wordKind word), word.length)
    else if isDigit c then
      some (some .number, 1 + (rest.takeWhile fun d => isDigit d || d == '.').length)
    else if Text.isBlank c then some (none, 1 + (rest.takeWhile Text.isBlank).length)
    else (operatorAt s).map fun (spelling, kind) => (some kind, spelling.length)

/-- The tokens of a text that begins at `p`, with the end marker after them. -/
def scanFrom (separators : List Char) (p : Point) (s : List Char) :
    Except ScanError (List (Token Kind)) :=
  match s with
  | [] => .ok [.atEnd p]
  | c :: rest =>
    match pieceAt separators (c :: rest) with
    | none => .error ⟨c, p⟩
    | some (kind, n) =>
      let piece := c :: rest.take (n - 1)
      match scanFrom separators (p.advance piece) (rest.drop (n - 1)) with
      | .error e => .error e
      | .ok tokens =>
        match kind with
        | none => .ok tokens
        | some kind =>
          .ok (⟨kind, String.ofList piece, ⟨p, p.advance piece.dropLast⟩⟩ :: tokens)
termination_by s.length

def scan (separators : List Char) (text : String) : Except ScanError (List (Token Kind)) :=
  scanFrom separators .start text.toList

end Predictive.Postfix
