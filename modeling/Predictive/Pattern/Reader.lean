import Predictive.Pattern

/-!
# Reading patterns

The written form: characters stand for themselves, `.` for any character but the line feed, `^` and `$`
for the ends of the text, `[…]` and `[^…]` are classes, `(…)` and `(?:…)` group, `|` separates
alternatives, and `*`, `+`, `?` repeat what stands before them, lazily with another `?`. A backslash
takes the meaning of the mark after it away; `\n` is a line feed, `\s` a blank, `\<` and `\>` are the
start and the end of a word.

A class lists characters, ranges and other classes, and `&&`, `--`, `~~` combine what stands on their two
sides, from left to right. A `]` in front stands for itself, and so does `-` where no range can begin.

Reading has three steps. `glyphs` recognises what backslashes make; `marks` reads classes, so that
brackets are gone; `assemble` builds the pattern with a stack of the groups that are still open. Patterns
that are nested too deeply are refused (`Pattern.heightLimit`).
-/

namespace Predictive.Pattern

/-- A character as it is written: by itself, or with the meaning that a backslash gives it. -/
inductive Glyph where
  | bare (c : Char)
  | escaped (c : Char)
  | blank
  | look (l : Look)
deriving DecidableEq

/-- What a backslash before `c` stands for. -/
def escape : Char → Option Glyph
  | 'n' => some (.escaped '\n')
  | 't' => some (.escaped '\t')
  | 'r' => some (.escaped '\r')
  | 'a' => some (.escaped '\x07')
  | 'v' => some (.escaped '\x0b')
  | 'f' => some (.escaped '\x0c')
  | 's' => some .blank
  | '<' => some (.look .wordStart)
  | '>' => some (.look .wordEnd)
  | c => if c ≤ '\x7f' && !c.isAlphanum then some (.escaped c) else none

def glyphs : List Char → Option (List Glyph)
  | [] => some []
  | ['\x5c'] => none
  | '\x5c' :: c :: s =>
    match escape c with
    | none => none
    | some g => (glyphs s).map (g :: ·)
  | c :: s => (glyphs s).map (.bare c :: ·)

/-- The character that stands for itself. -/
def Glyph.char? : Glyph → Option Char
  | .bare c => some c
  | .escaped c => some c
  | _ => none

/-- The characters that a glyph stands for in a class. -/
def Glyph.class? : Glyph → Option CharClass
  | .bare c => some (.single c)
  | .escaped c => some (.single c)
  | .blank => some .blank
  | .look _ => none

/-- Something written, and how deeply it is nested. -/
structure Nested (α : Type) where
  value : α
  height : Nat

/-- The greatest height of the parts. -/
def maxHeight {α : Type} (ps : List (Nested α)) : Nat := (ps.map (·.height)).foldl max 0

/-! ## Classes -/

inductive SetOperator where
  | inter
  | diff
  | symmDiff

/-- The operator that two of the character write. -/
def SetOperator.ofChar? : Char → Option SetOperator
  | '&' => some inter
  | '-' => some diff
  | '~' => some symmDiff
  | _ => none

def SetOperator.apply (op : SetOperator) (k m : CharClass) : CharClass :=
  match op with
  | inter => k.inter m
  | diff => k.diff m
  | symmDiff => k.symmDiff m

/-- Where reading is inside a class: behind the bracket, before the first item other than `-`, or
behind that. -/
inductive Stage where
  | opened
  | leading
  | body
deriving DecidableEq

/-- A class that is still open: what stands before the last operator, and the items behind it. -/
structure Bracket where
  negated : Bool
  stage : Stage
  left : Option (Nested CharClass × SetOperator)
  items : List (Nested CharClass)

namespace Bracket

def opened : Bracket := ⟨false, .opened, none, []⟩

/-- The class with one more item. -/
def add (b : Bracket) (k : Nested CharClass) : Bracket := { b with items := k :: b.items }

def addClass (b : Bracket) (k : CharClass) : Bracket := b.add ⟨k, 0⟩

/-- The items together. -/
def operand (b : Bracket) : Nested CharClass :=
  let k := CharClass.normal ⟨b.items.flatMap (·.value.ranges)⟩
  match b.items with
  | [item] => ⟨k, item.height⟩
  | items => ⟨k, if items.isEmpty then 0 else maxHeight items + 1⟩

/-- What has been read so far. -/
def total (b : Bracket) : Nested CharClass :=
  match b.left with
  | none => b.operand
  | some (k, op) =>
    ⟨(op.apply k.value b.operand.value).normal, max k.height b.operand.height + 1⟩

def operate (b : Bracket) (op : SetOperator) : Bracket := { b with left := some (b.total, op), items := [] }

/-- The class when its closing bracket is read. -/
def close (b : Bracket) : Nested CharClass :=
  let k := b.total
  ⟨if b.negated then k.value.compl else k.value, k.height + 1⟩

end Bracket

/-- The class of a name between colons and the bracket behind it, as in `[:alpha:]` behind its first
bracket, and how many glyphs that takes. -/
def namedClass? : List Glyph → Option (CharClass × Nat)
  | .bare ':' :: s =>
    let negated := s.head? = some (.bare '^')
    let s := if negated then s.tail else s
    let letters := (s.map Glyph.char?).takeWhile fun c => c.any Char.isLower
    let name := letters.filterMap id
    match s.drop name.length, CharClass.ofName? (String.ofList name) with
    | .bare ':' :: .bare ']' :: _, some k =>
      some (if negated then k.compl else k, name.length + if negated then 4 else 3)
    | _, _ => none
  | _ => none

/-! ## Marks -/

inductive Mark where
  | part (p : Pattern) (height : Nat)
  | openGroup (numbered : Bool)
  | closeGroup
  | bar
  | repetition (r : Repetition)

/-- What a glyph does: the classes that are open after it, how many glyphs after it belong to it, and the
mark that it completes. -/
structure Reading where
  brackets : List Bracket
  taken : Nat
  mark : Option Mark

/-- The glyph `g`, with `s` after it, outside of classes. -/
def readOutside (g : Glyph) (s : List Glyph) : Option Reading :=
  let mark (m : Mark) : Option Reading := some ⟨[], 0, some m⟩
  let repetition (rounds : Rounds) : Option Reading :=
    let lazily := s.head? = some (.bare '?')
    some ⟨[], if lazily then 1 else 0, some (.repetition ⟨rounds, lazily⟩)⟩
  match g with
  | .bare '[' => some ⟨[.opened], 0, none⟩
  | .bare '(' =>
    match s with
    | .bare '?' :: .bare ':' :: _ => some ⟨[], 2, some (.openGroup false)⟩
    | .bare '?' :: _ => none
    | _ => mark (.openGroup true)
  | .bare ')' => mark .closeGroup
  | .bare '|' => mark .bar
  | .bare '*' => repetition .anyNumber
  | .bare '+' => repetition .atLeastOne
  | .bare '?' => repetition .atMostOne
  | .bare '\x7b' => none
  | .bare '.' => mark (.part (.one .dot) 0)
  | .bare '^' => mark (.part (.look .textStart) 0)
  | .bare '$' => mark (.part (.look .textEnd) 0)
  | .bare c => mark (.part (.literal [c]) 0)
  | .escaped c => mark (.part (.literal [c]) 0)
  | .blank => mark (.part (.one .blank) 0)
  | .look l => mark (.part (.look l) 0)

/-- An item of the class `b`, which `g` begins: a range if `-` and its end follow. -/
def readItem (b : Bracket) (bs : List Bracket) (g : Glyph) (s : List Glyph) : Option Reading :=
  let single := g.class?.map fun k => ⟨b.addClass k :: bs, 0, none⟩
  match s with
  | .bare '-' :: h :: _ =>
    if h = .bare ']' ∨ h = .bare '-' then single
    else match g.char?, h.char? with
      | some lo, some hi => if lo ≤ hi then some ⟨b.addClass (.range lo hi) :: bs, 2, none⟩ else none
      | _, _ => none
  | _ => single

/-- The glyph `g`, with `s` after it, inside the class `b` and behind what can only stand in front. -/
def readBody (b : Bracket) (bs : List Bracket) (g : Glyph) (s : List Glyph) : Option Reading :=
  match g with
  | .bare '[' =>
    match namedClass? s with
    | some (k, taken) => some ⟨b.addClass k :: bs, taken, none⟩
    | none => some ⟨.opened :: b :: bs, 0, none⟩
  | .bare ']' =>
    let k := b.close
    match bs with
    | [] => some ⟨[], 0, some (.part (.ofClass k.value) k.height)⟩
    | outer :: bs => some ⟨outer.add k :: bs, 0, none⟩
  | .bare c =>
    match SetOperator.ofChar? c, s.head?.any (· == .bare c) with
    | some op, true => some ⟨b.operate op :: bs, 1, none⟩
    | _, _ => readItem b bs g s
  | _ => readItem b bs g s

/-- The glyph `g`, with `s` after it, inside the class `b` and the classes `bs` around it. -/
def readInside (b : Bracket) (bs : List Bracket) (g : Glyph) (s : List Glyph) : Option Reading :=
  if b.stage = .opened ∧ g = .bare '^' then
    some ⟨{ b with negated := true, stage := .leading } :: bs, 0, none⟩
  else if b.stage ≠ .body ∧ g = .bare '-' then
    some ⟨{ b with stage := .leading }.addClass (.single '-') :: bs, 0, none⟩
  else if b.stage ≠ .body ∧ g = .bare ']' ∧ b.items.isEmpty then
    some ⟨{ b with stage := .body }.addClass (.single ']') :: bs, 0, none⟩
  else readBody { b with stage := .body } bs g s

/-- The marks of a text, inside the classes `brackets`. The next `taken` glyphs belong to one that has
been read. -/
def marks (brackets : List Bracket) (taken : Nat) : List Glyph → Option (List Mark)
  | [] => if brackets.isEmpty then some [] else none
  | g :: s =>
    match taken, brackets with
    | taken + 1, brackets => marks brackets taken s
    | 0, [] => (readOutside g s).bind fun r => (marks r.brackets r.taken s).map (r.mark.toList ++ ·)
    | 0, b :: bs => (readInside b bs g s).bind fun r =>
      (marks r.brackets r.taken s).map (r.mark.toList ++ ·)

/-! ## Groups -/

/-- A group that is still open: its finished alternatives, and the parts of the last one, both from the
last to the first. -/
structure Group where
  number : Option Nat
  alternatives : List (Nested Pattern)
  parts : List (Nested Pattern)

namespace Group

def push (g : Group) (p : Nested Pattern) : Group := { g with parts := p :: g.parts }

/-- The parts of the last alternative, in order. -/
def sequence (g : Group) : Nested Pattern :=
  match g.parts with
  | [] => ⟨.empty, 0⟩
  | [p] => p
  | ps => ⟨concat (ps.reverse.map (·.value)), maxHeight ps + 1⟩

def bar (g : Group) : Group := { g with alternatives := g.sequence :: g.alternatives, parts := [] }

/-- All alternatives. -/
def content (g : Group) : Nested Pattern :=
  match (g.sequence :: g.alternatives).reverse with
  | [] => ⟨.empty, 0⟩
  | [p] => p
  | p :: ps => ⟨alternation p.value (ps.map (·.value)), maxHeight (p :: ps) + 1⟩

/-- The group when it is closed. -/
def close (g : Group) : Nested Pattern :=
  let p := g.content
  match g.number with
  | none => ⟨p.value, p.height + 1⟩
  | some n => ⟨.group n p.value, p.height + 1⟩

/-- The last part repeated; there must be one. -/
def repeatLast (g : Group) (r : Repetition) : Option Group :=
  match g.parts with
  | [] => none
  | p :: ps => some { g with parts := ⟨.repeated r p.value, p.height + 1⟩ :: ps }

end Group

/-- The pattern of the marks, inside the group `g` and the groups `outer` around it, when `count` groups
have been numbered. -/
def assemble (count : Nat) (g : Group) (outer : List Group) : List Mark → Option (Nested Pattern)
  | [] => if outer.isEmpty then some g.content else none
  | .part p height :: ms => assemble count (g.push ⟨p, height⟩) outer ms
  | .openGroup false :: ms => assemble count ⟨none, [], []⟩ (g :: outer) ms
  | .openGroup true :: ms => assemble (count + 1) ⟨some count, [], []⟩ (g :: outer) ms
  | .closeGroup :: ms =>
    match outer with
    | [] => none
    | around :: outer => assemble count (around.push g.close) outer ms
  | .bar :: ms => assemble count g.bar outer ms
  | .repetition r :: ms => (g.repeatLast r).bind (assemble count · outer ms)

/-- How deeply a pattern may be nested. Sequences, alternatives, repetitions, groups, classes and lists
of items in them count. -/
def heightLimit : Nat := 250

/-- The pattern that `text` writes down. -/
def ofString? (text : String) : Option Pattern :=
  match ((glyphs text.toList).bind (marks [] 0)).bind (assemble 0 ⟨none, [], []⟩ []) with
  | none => none
  | some p => if p.height ≤ heightLimit then some p.value else none

/-- The pattern of a group with the content `text` at the start of a text. The content is not looked at
on its own, so that it may close the group and go on with alternatives that can be anywhere. -/
def ofContent? (text : String) : Option Pattern := ofString? ("^(?:" ++ text ++ ")")

end Predictive.Pattern
