import Predictive.Grammar.Text
import Predictive.Journal
import Predictive.Postfix.Grammar
import Predictive.Postfix.Lexer

/-!
# Checking programs

A text is a program if its tokens are derived by the grammar. `check` takes the grammar of the postfix
language; any other grammar over the same terminals can be loaded from a text.
-/

namespace Predictive
open Postfix

/-- Why a text does not write down a grammar with a table. -/
inductive LoadError where
  | grammar (e : GrammarError Kind)
  | conflict (g : Grammar Kind) (c : Conflict g)

def LoadError.message : LoadError → String
  | grammar e => s!"invalid grammar: {e.message}"
  | conflict _ c => c.message

/-- Why a text is not accepted. -/
inductive CheckError where
  | load (e : LoadError)
  | scan (e : ScanError)
  | parse (e : ParseError Kind)
  /-- The machine does not stop, as can happen with productions that mention the end marker. -/
  | endless

def CheckError.message : CheckError → String
  | load e => e.message
  | scan e => s!"lexical error: {e.message}"
  | parse e => s!"syntax error: {e.message}"
  | endless => "the derivation does not end"

/-- A grammar of the language's terminals with its table. -/
structure Loaded where
  grammar : Grammar Kind
  table : Table grammar

namespace Loaded

/-- The grammar of the language itself. -/
def builtIn : Loaded := ⟨Postfix.grammar, Postfix.table⟩

/-- The grammar that a text writes down. -/
def ofText (text : String) : Except LoadError Loaded :=
  match Grammar.ofText text with
  | .error e => .error (.grammar e)
  | .ok g =>
    match Table.ofGrammar g with
    | .error c => .error (.conflict g c)
    | .ok table => .ok ⟨g, table⟩

/-- The records of loading the grammar that a text writes down. -/
def recordsOfText (text : String) : List Record :=
  match (Grammar.ofText text : Except (GrammarError Kind) (Grammar Kind)) with
  | .error _ => []
  | .ok g => g.warnings ++ g.tableRecords

/-- The derivation of a text by the loaded grammar. -/
def check (l : Loaded) (text : String) : Except CheckError (List (Step l.grammar)) :=
  match Postfix.tokenize text with
  | .error e => .error (.scan e)
  | .ok tokens =>
    match l.table.parse tokens with
    | none => .error .endless
    | some ⟨derivation, none⟩ => .ok derivation
    | some ⟨_, some e⟩ => .error (.parse e)

/-- The records of checking a text. -/
def checkRecords (l : Loaded) (text : String) : List Record :=
  match Postfix.tokenize text with
  | .error _ => []
  | .ok tokens => l.table.parseRecords tokens

end Loaded

/-- The derivation of a program of the postfix language. -/
def check (text : String) : Except CheckError (List (Step Postfix.grammar)) :=
  Loaded.builtIn.check text

/-- The derivation of a text by the grammar that another text writes down. -/
def checkBy (grammar text : String) : Except CheckError ((l : Loaded) × List (Step l.grammar)) :=
  match Loaded.ofText grammar with
  | .error e => .error (.load e)
  | .ok l => (l.check text).map (⟨l, ·⟩)

/-- The records of checking a text by the grammar that another text writes down. -/
def checkByRecords (grammar text : String) : List Record :=
  Loaded.recordsOfText grammar ++ match Loaded.ofText grammar with
    | .error _ => []
    | .ok l => l.checkRecords text

end Predictive
