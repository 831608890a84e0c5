import Predictive.Pattern
import Predictive.Walk

/-!
# Programs of patterns

A pattern is matched by a program for it. An instruction reads a character, or tells where to go on
without reading. A place between two characters is met by the instructions that a walk visits there,
each of them once, in the order of preference; so a round of a repetition that reads nothing leads to
the rounds after it only where no preferred way has been already. Instructions after one that stops
are given up. The instructions before it go on with the next character, and a stop that they come to
is preferred.

A match may begin anywhere unless the pattern asks for the start of the text. Of several places the
first one with a match counts (`Program.firstEnd`).
-/

namespace Predictive

/-- An instruction; places where programs go on are numbered. -/
inductive Instr where
  | read (k : CharClass) (next : Nat)
  | jump (next : Nat)
  | check (l : Look) (next : Nat)
  /-- Two ways, the first one preferred. -/
  | fork (first second : Nat)
  | stop
deriving DecidableEq, Repr

namespace Pattern

/-- Reads the characters of a literal. -/
def literalCode (s : List Char) (base next : Nat) : List Instr :=
  match s with
  | [] => [.jump next]
  | c :: s => .read (.single c) (base + 1) :: literalCode s (base + 1) next

/-- How many instructions the pattern takes. -/
def size : Pattern → Nat
  | .literal s => s.length + 1
  | .seq p q => p.size + q.size
  | .alt p q => p.size + q.size + 1
  | .repeated ⟨.anyNumber, _⟩ p => p.size + 2
  | .repeated _ p => p.size + 1
  | .group _ p => p.size
  | _ => 1

/-- A fork for another round at `round`, or the end of the repetition at `next`. -/
def roundFork (lazily : Bool) (round next : Nat) : Instr :=
  if lazily then .fork next round else .fork round next

/-- The instructions of the pattern if they begin at `base` and go on at `next`. -/
def code (p : Pattern) (base next : Nat) : List Instr :=
  match p with
  | .empty => [.jump next]
  | .literal s => literalCode s base next
  | .one k => [.read k next]
  | .look l => [.check l next]
  | .seq p q => p.code base (base + p.size) ++ q.code (base + p.size) next
  | .alt p q =>
    .fork (base + 1) (base + 1 + p.size) ::
      (p.code (base + 1) next ++ q.code (base + 1 + p.size) next)
  | .repeated ⟨.atMostOne, lazily⟩ p =>
    roundFork lazily (base + 1) next :: p.code (base + 1) next
  | .repeated ⟨.atLeastOne, lazily⟩ p =>
    p.code base (base + p.size) ++ [roundFork lazily base next]
  | .repeated ⟨.anyNumber, lazily⟩ p =>
    roundFork lazily (base + 1) next ::
      (p.code (base + 1) (base + 1 + p.size) ++ [roundFork lazily (base + 1) next])
  | .group _ p => p.code base next

theorem length_literalCode {s : List Char} {base next : Nat} :
    (literalCode s base next).length = s.length + 1 := by
  induction s generalizing base with
  | nil => rfl
  | cons c s ih => simp [literalCode, ih]

theorem length_code {p : Pattern} {base next : Nat} : (p.code base next).length = p.size := by
  fun_induction code p base next with
  | case1 => rfl
  | case2 => exact length_literalCode
  | case3 => rfl
  | case4 => rfl
  | case5 _ _ _ _ ihp ihq => simp [size, ihp, ihq]
  | case6 _ _ _ _ ihp ihq => simp [size, ihp, ihq]
  | case7 _ _ _ _ ih => simp [size, ih]
  | case8 _ _ _ _ ih => simp [size, ih]
  | case9 _ _ _ _ ih => simp [size, ih]
  | case10 _ _ _ _ ih => simp [size, ih]

end Pattern

/-- Instructions, of which the first one is to begin with. -/
structure Program where
  size : Nat
  code : Vector Instr size

namespace Program

/-- The program of a pattern. -/
def ofPattern (p : Pattern) : Program :=
  ⟨p.size + 1, ⟨(p.code 0 p.size ++ [Instr.stop]).toArray, by simp [Pattern.length_code]⟩⟩

variable (P : Program)

/-- The instruction with the given number. -/
def index? (n : Nat) : Option (Fin P.size) := if h : n < P.size then some ⟨n, h⟩ else none

/-- Where an instruction leads to between two characters. -/
def targets (before after : Option Char) (i : Fin P.size) : List (Fin P.size) :=
  match P.code.get i with
  | .jump next => (P.index? next).toList
  | .check l next => if l.holds before after then (P.index? next).toList else []
  | .fork first second => (P.index? first).toList ++ (P.index? second).toList
  | .read .. => []
  | .stop => []

/-- Where the program goes on after the instruction has read `c`. -/
def afterChar (c : Char) (i : Fin P.size) : Option (Fin P.size) :=
  match P.code.get i with
  | .read k next => if k.has c then P.index? next else none
  | _ => none

def stopsAt (i : Fin P.size) : Bool := P.code.get i = Instr.stop

/-- Whether the program can begin at the start of the text only. -/
def isFront : Bool :=
  match (P.index? 0).map P.code.get with
  | some (.check .textStart _) => true
  | _ => false

/-- The instructions that are met between two characters, coming from `live` or, as long as there is no
match, beginning here. -/
def meet (live : List (Fin P.size)) (best : Option Nat) (before after : Option Char) :
    List (Fin P.size) :=
  let begin := if best.isNone then (P.index? 0).toList else []
  preorder (P.targets before after) (live ++ begin)

/-- The end of the preferred match. The program is at the instructions `live`, `read` characters were
read, the last of them `before`, and `best` is the end of the match found so far. -/
def run (live : List (Fin P.size)) (before : Option Char) (read : Nat) (best : Option Nat) :
    List Char → Option Nat
  | [] => if (P.meet live best before none).any P.stopsAt then some read else best
  | c :: s =>
    let met := P.meet live best before (some c)
    let best := if met.any P.stopsAt then some read else best
    let live := (met.takeWhile (!P.stopsAt ·)).filterMap (P.afterChar c)
    if live.isEmpty && (best.isSome || P.isFront) then best
    else run live (some c) (read + 1) best s

/-- The end of the first match in the text, if there is one. -/
def firstEnd (s : List Char) : Option Nat := P.run [] none 0 none s

variable {P}

theorem le_of_run_eq_some {live : List (Fin P.size)} {before : Option Char} {read : Nat}
    {best : Option Nat} {s : List Char} {n : Nat} (hbest : ∀ m, best = some m → m ≤ read)
    (h : P.run live before read best s = some n) : n ≤ read + s.length := by
  have step : ∀ {best : Option Nat} {read : Nat} (b : Bool), (∀ m, best = some m → m ≤ read) →
      ∀ m, (if b then some read else best) = some m → m ≤ read := by
    intro best read b hbest m hm
    split at hm
    · cases hm; exact Nat.le_refl _
    · exact hbest m hm
  induction s generalizing live before read best with
  | nil => exact step _ hbest _ h
  | cons c s ih =>
    unfold run at h
    dsimp only at h
    have hbest' := step ((P.meet live best before (some c)).any P.stopsAt) hbest
    generalize (if (P.meet live best before (some c)).any P.stopsAt then some read else best) =
      best' at h hbest'
    rw [List.length_cons]
    split at h
    · have := hbest' _ h; omega
    · have := ih (fun m hm => Nat.le_succ_of_le (hbest' m hm)) h; omega

theorem firstEnd_le {s : List Char} {n : Nat} (h : P.firstEnd s = some n) : n ≤ s.length := by
  simpa using le_of_run_eq_some (by simp) h

end Program

end Predictive
