import Predictive.Grammar.Reachable
import Predictive.Grammar.Rules
import Predictive.Machine

/-!
# Records

What the library has to report about its work, as values: the functions here give the records of an
operation in the order in which the work is done. A record has a level, and a reader who asks for a
level gets the records of that level and of the graver ones.
-/

namespace Predictive

/-- How grave a record is, the gravest level first. -/
inductive Level where
  | warn
  | info
  | debug
  | trace
deriving DecidableEq, Repr

namespace Level

/-- The number of levels that are graver. -/
def rank : Level → Nat
  | warn => 0
  | info => 1
  | debug => 2
  | trace => 3

def name : Level → String
  | warn => "WARN"
  | info => "INFO"
  | debug => "DEBUG"
  | trace => "TRACE"

def ofName? : String → Option Level
  | "warn" => some warn
  | "info" => some info
  | "debug" => some debug
  | "trace" => some trace
  | _ => none

end Level

/-- The part of the work that a record is about. -/
inductive Topic where
  | grammar
  | sets
  | table
  | machine
  | command
deriving DecidableEq, Repr

structure Record where
  level : Level
  topic : Topic
  text : String
deriving DecidableEq, Repr

/-- The records that a reader at `limit` gets. -/
def Record.upTo (limit : Level) (records : List Record) : List Record :=
  records.filter (·.level.rank ≤ limit.rank)

variable {T : Type} [Terminal T]

/-- A warning for each nonterminal that cannot be reached, in order. -/
def Grammar.warnings (g : Grammar T) : List Record :=
  g.unreachable.map fun x =>
    ⟨.warn, .grammar, s!"nonterminal `{g.name x}` is unreachable from `{g.name g.start}`"⟩

/-- The warnings about the grammar that was asked for, if it was made. -/
def Grammar.buildRecords (built : Except (GrammarError T) (Grammar T)) : List Record :=
  match built with
  | .error _ => []
  | .ok g => g.warnings

/-- The number of passes that found the FIRST sets. -/
def Grammar.firstRecord (g : Grammar T) : Record :=
  ⟨.debug, .sets, s!"FIRST sets converged after {g.first.passes} passes"⟩

/-- The number of passes that found the FOLLOW sets. -/
def Grammar.followRecord {g : Grammar T} (F : FirstSets g) : Record :=
  ⟨.debug, .sets, s!"FOLLOW sets converged after {(Grammar.follow F).passes} passes"⟩

/-- The size of a table, or the conflict that prevents it. -/
def Table.record {g : Grammar T} (built : Except (Conflict g) (Table g)) : Record :=
  match built with
  | .ok table =>
    ⟨.debug, .table, s!"parsing table built: {g.size} nonterminals, {table.size} entries"⟩
  | .error c => ⟨.debug, .table, c.message⟩

/-- The records of finding the sets of the grammar. -/
def Grammar.setsRecords (g : Grammar T) : List Record :=
  [g.firstRecord, Grammar.followRecord g.first.value]

/-- The records of making the table of the grammar. -/
def Grammar.tableRecords (g : Grammar T) : List Record :=
  g.setsRecords ++ [Table.record (Table.ofGrammar g)]

/-- The records of running the table's machine on the tokens. -/
def Table.parseRecords {g : Grammar T} (table : Table g) (tokens : List (Token T)) : List Record :=
  (table.trace tokens).map (⟨.trace, .machine, ·⟩)

end Predictive
