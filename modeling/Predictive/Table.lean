import Predictive.Follow

/-!
# Parsing tables

A table says by which production to replace a nonterminal when a given terminal comes next. It has a row
of cells for each nonterminal, with at most one cell for each terminal, and lists its cells in the order
of nonterminals and terminals (`Table.increasing_cells`).
Filling it production by production either places every production at all its lookaheads or meets a
cell that is taken: then the grammar is not LL(1), and the conflict names both productions.
-/

namespace Predictive
variable {T : Type} [Terminal T]

/-- Replace the left-hand side of `production` by its right-hand side when `lookahead` comes next. -/
structure Cell (g : Grammar T) where
  production : g.Production
  lookahead : T
deriving DecidableEq

namespace Cell
variable {g : Grammar T}

def nonterminal (c : Cell g) : g.Nonterminal := c.production.left

def compareLookahead : Cell g → Cell g → Ordering := compareOn lookahead

def compare : Cell g → Cell g → Ordering := compareLex (compareOn nonterminal) compareLookahead

instance : Std.TransCmp (compareLookahead (g := g)) :=
  inferInstanceAs (Std.TransCmp (compareOn lookahead))

end Cell

/-- A partial function from nonterminals and lookaheads to productions of the nonterminal: a row of
cells for each nonterminal, in the order of their lookaheads. -/
structure Table (g : Grammar T) where
  rows : Vector (List (Cell g)) g.size
  increasing : ∀ x, (rows.get x).Pairwise (Cell.compareLookahead · · = .lt)
  nonterminal_eq : ∀ x, ∀ c ∈ rows.get x, c.nonterminal = x

/-- Two productions of one nonterminal that are both to be used on the same lookahead. -/
structure Conflict (g : Grammar T) where
  existing : g.Production
  candidate : g.Production
  terminal : T
deriving DecidableEq

def Conflict.message {g : Grammar T} (c : Conflict g) : String :=
  s!"grammar is not LL(1): ({g.name c.candidate.left}, {Terminal.name c.terminal}) is claimed by both " ++
    s!"`{c.existing.describe}` and `{c.candidate.describe}`"

namespace Table
variable {g : Grammar T}

def row (table : Table g) (x : g.Nonterminal) : List (Cell g) := table.rows.get x

def cells (table : Table g) : List (Cell g) := g.nonterminals.flatMap table.row

theorem increasing_cells (table : Table g) : table.cells.Pairwise (Cell.compare · · = .lt) := by
  unfold cells Grammar.nonterminals
  rw [List.flatMap_def, List.pairwise_flatten]
  constructor
  · intro row hrow
    obtain ⟨x, -, rfl⟩ := List.mem_map.1 hrow
    refine (table.increasing x).imp_of_mem fun {c d} hc hd hcd => ?_
    have hc := table.nonterminal_eq x c hc
    have hd := table.nonterminal_eq x d hd
    simp [Cell.compare, compareLex, compareOn, hc, hd, hcd]
  · rw [List.pairwise_map]
    refine (List.pairwise_lt_finRange g.size).imp fun {x y} hxy c hc d hd => ?_
    have hc := table.nonterminal_eq x c hc
    have hd := table.nonterminal_eq y d hd
    have hxy : Ord.compare x y = .lt := Nat.compare_eq_lt.2 hxy
    simp [Cell.compare, compareLex, compareOn, hc, hd, hxy]

def empty : Table g :=
  ⟨Vector.replicate g.size [], fun x => by simp [Vector.get], fun x => by simp [Vector.get]⟩

/-- The production to use for `x` when `t` comes next. -/
def get? (table : Table g) (x : g.Nonterminal) (t : T) : Option g.Production :=
  ((table.row x).find? fun c => decide (c.lookahead = t)).map (·.production)

theorem left_of_get? {table : Table g} {x : g.Nonterminal} {t : T} {p : g.Production}
    (h : table.get? x t = some p) : p.left = x := by
  obtain ⟨c, hc, rfl⟩ := Option.map_eq_some_iff.1 h
  exact table.nonterminal_eq x c (List.mem_of_find?_eq_some hc)

theorem get_set {α : Type} {n : Nat} {v : Vector α n} {i x : Fin n} {a : α} :
    (v.set i a i.isLt).get x = if i = x then a else v.get x := by
  change (v.set i a i.isLt)[(x : Nat)] = _
  rw [Vector.getElem_set]
  simp only [Fin.val_inj]
  rfl

def insert (c : Cell g) (table : Table g) : Table g where
  rows := table.rows.set c.nonterminal (Sorted.insert Cell.compareLookahead c (table.row c.nonterminal))
  increasing x := by
    rw [get_set]
    split
    · exact Sorted.pairwise_insert c (table.increasing c.nonterminal)
    · exact table.increasing x
  nonterminal_eq x d hd := by
    rw [get_set] at hd
    split at hd
    · next h =>
      subst h
      rcases Sorted.mem_of_mem_insert hd with rfl | hd
      · rfl
      · exact table.nonterminal_eq _ d hd
    · exact table.nonterminal_eq x d hd

/-- The lookaheads that `x` has a cell for, in order. -/
def expected (table : Table g) (x : g.Nonterminal) : List T := (table.row x).map (·.lookahead)

def size (table : Table g) : Nat := table.cells.length

/-- The terminals on which to use `p`: those that its right-hand side can begin with, and if that can
be empty, those that can follow its left-hand side. -/
def lookaheads (F : FirstSets g) (W : FollowSets g) (p : g.Production) : TerminalSet T :=
  let first := F.ofForm p.right
  if first.nullable then first.terminals.union (W.of p.left) else first.terminals

/-- The table with `p` at each of the terminals, or the first of them whose cell is taken. -/
def place (p : g.Production) : List T → Table g → Except (Conflict g) (Table g)
  | [], table => .ok table
  | t :: ts, table =>
    match table.get? p.left t with
    | some existing => .error ⟨existing, p, t⟩
    | none => place p ts (table.insert ⟨p, t⟩)

def fill (F : FirstSets g) (W : FollowSets g) :
    List g.Production → Table g → Except (Conflict g) (Table g)
  | [], table => .ok table
  | p :: ps, table =>
    match place p (lookaheads F W p).toList table with
    | .error c => .error c
    | .ok table => fill F W ps table

def build (F : FirstSets g) (W : FollowSets g) : Except (Conflict g) (Table g) :=
  fill F W g.productions empty

def ofGrammar (g : Grammar T) : Except (Conflict g) (Table g) :=
  let F := g.first.value
  build F (Grammar.follow F).value

/-- A cell as its nonterminal and terminal in brackets and its production. -/
def cellText (c : Cell g) : String :=
  s!"[{g.name c.nonterminal}, {Terminal.name c.lookahead}] {c.production.describe}\n"

def toText (table : Table g) : String := String.join (table.cells.map cellText)

end Table

end Predictive
