import Predictive.Pattern.Program
import Predictive.Text.Quoted
import Predictive.Token

/-!
# Lexers

A lexer cuts a text into pieces from front to back. At each place the rule with the longest match that
is not empty takes its match as the next piece, and of several rules with matches of that length the
last one. `tile` cuts, `locate` gives the pieces their places and drops those that no kind is assigned
to, and `tokenize` closes the list with the end marker or reports the character that no rule reads.
-/

namespace Predictive

/-- How to recognise a piece at the front of a text, and the kind of token it makes, if it makes one. -/
structure LexerRule (T : Type) where
  matchLength : List Char → Option Nat
  kind : String → Option T
  matchLength_le : ∀ s n, matchLength s = some n → n ≤ s.length

namespace LexerRule
variable {T : Type}

/-- The rule that reads up to the end of the first match of the pattern `p`. -/
def ofPattern (p : Pattern) (kind : String → Option T) : LexerRule T :=
  ⟨(Program.ofPattern p).firstEnd, kind, fun _ _ h => Program.firstEnd_le h⟩

/-- Keeps `best` unless the rule's match is at least as long and not empty. -/
def better (s : List Char) (best : Option (LexerRule T × Nat)) (r : LexerRule T) :
    Option (LexerRule T × Nat) :=
  match r.matchLength s, best with
  | none, _ => best
  | some 0, _ => best
  | some (n + 1), none => some (r, n + 1)
  | some (n + 1), some (r', m) => if m ≤ n + 1 then some (r, n + 1) else some (r', m)

/-- The rule that reads the next piece, and the length of the piece. -/
def select (rules : List (LexerRule T)) (s : List Char) : Option (LexerRule T × Nat) :=
  rules.foldl (better s) none

/-- The lengths that `select` gives are those of matches that are not empty. -/
theorem select_spec {rules : List (LexerRule T)} {s : List Char} {r : LexerRule T} {n : Nat}
    (h : select rules s = some (r, n)) : r ∈ rules ∧ r.matchLength s = some n ∧ 0 < n := by
  have key : ∀ (rules : List (LexerRule T)) (best : Option (LexerRule T × Nat)) (r : LexerRule T)
      (n : Nat), rules.foldl (better s) best = some (r, n) →
      best = some (r, n) ∨ (r ∈ rules ∧ r.matchLength s = some n ∧ 0 < n) := by
    intro rules
    induction rules with
    | nil => intro best r n h; exact .inl h
    | cons r' rules ih =>
      intro best r n h
      rcases ih _ r n h with h | ⟨hr, hn⟩
      · unfold better at h
        split at h
        · exact .inl h
        · exact .inl h
        · cases h; exact .inr ⟨List.mem_cons_self .., by assumption, Nat.succ_pos _⟩
        · split at h
          · cases h; exact .inr ⟨List.mem_cons_self .., by assumption, Nat.succ_pos _⟩
          · exact .inl h
      · exact .inr ⟨List.mem_cons_of_mem _ hr, hn⟩
  exact (key rules none r n h).resolve_left (by simp)

theorem select_pos {rules : List (LexerRule T)} {s : List Char} {r : LexerRule T} {n : Nat}
    (h : select rules s = some (r, n)) : 0 < n := (select_spec h).2.2

theorem select_le {rules : List (LexerRule T)} {s : List Char} {r : LexerRule T} {n : Nat}
    (h : select rules s = some (r, n)) : n ≤ s.length :=
  r.matchLength_le s n (select_spec h).2.1

@[simp] theorem select_nil (rules : List (LexerRule T)) : select rules [] = none := by
  cases h : select rules [] with
  | none => rfl
  | some found =>
    have := select_pos h
    have := select_le h
    simp at *; omega

end LexerRule

/-- A lexer is its rules, the later ones preferred. -/
structure Lexer (T : Type) where
  rules : List (LexerRule T)

/-- The character at which no rule has a match. -/
structure ScanError where
  character : Char
  position : Point
deriving DecidableEq, Repr

def ScanError.message (e : ScanError) : String :=
  s!"unrecognized character {Text.quoteChar e.character} at {e.position}"

namespace Lexer
variable {T : Type}

/-- A piece of a text and the rule that reads it. -/
abbrev Piece (T : Type) := LexerRule T × List Char

/-- The pieces of the text, and what is left where no rule has a match. -/
def tile (l : Lexer T) (s : List Char) : List (Piece T) × List Char :=
  match h : LexerRule.select l.rules s with
  | none => ([], s)
  | some (r, n) =>
    have : s.length - n < s.length := by
      have := LexerRule.select_pos h
      have := LexerRule.select_le h
      omega
    let (pieces, rest) := l.tile (s.drop n)
    ((r, s.take n) :: pieces, rest)
termination_by s.length

theorem flatten_tile (l : Lexer T) (s : List Char) :
    ((l.tile s).1.map (·.2)).flatten ++ (l.tile s).2 = s := by
  fun_induction tile l s with
  | case1 => simp
  | case2 s r n _ _ pieces rest heq ih =>
    rw [heq] at ih
    simp only [List.map_cons, List.flatten_cons, List.append_assoc, ih, List.take_append_drop]

/-- The tokens of pieces that begin at `p`. A token ends at its last character. -/
def locate (p : Point) : List (Piece T) → List (Token T)
  | [] => []
  | (r, piece) :: pieces =>
    let tokens := locate (p.advance piece) pieces
    match r.kind (String.ofList piece) with
    | none => tokens
    | some kind => ⟨kind, String.ofList piece, ⟨p, p.advance piece.dropLast⟩⟩ :: tokens

/-- The tokens in front of the end of the text, or of the first character that no rule reads. -/
structure Scan (T : Type) where
  tokens : List (Token T)
  stop : Point
  failure : Option ScanError

def scan (l : Lexer T) (text : String) : Scan T :=
  let (pieces, rest) := l.tile text.toList
  let stop := Point.start.advance (pieces.map (·.2)).flatten
  ⟨locate .start pieces, stop, rest.head?.map (⟨·, stop⟩)⟩

/-- The tokens of the text with the end marker after them. -/
def tokenize [Terminal T] (l : Lexer T) (text : String) : Except ScanError (List (Token T)) :=
  let scan := l.scan text
  match scan.failure with
  | some e => .error e
  | none => .ok (scan.tokens ++ [.atEnd scan.stop])

end Lexer

end Predictive
