import Predictive.Check
import Predictive.Command.Options
import Predictive.Text.Line

/-!
# Checking programs line by line

Every line of the input that holds more than blanks and a comment is a program of its own, and gets one
verdict. What a run reads comes in as a value (`Sources`), and what it writes goes out as one
(`Outcome`).
-/

namespace Predictive.Command
open Postfix

/-- Why a text cannot be read. -/
inductive ReadFault where
  | missing
  /-- What is there is a folder. -/
  | isFolder
  /-- The path goes on behind a file. -/
  | notFolder
  | notText
  | other (text : String)
deriving DecidableEq, Repr

def ReadFault.message : ReadFault → String
  | missing => "No such file or directory (os error 2)"
  | isFolder => "Is a directory (os error 21)"
  | notFolder => "Not a directory (os error 20)"
  | notText => "stream did not contain valid UTF-8"
  | other text => text

/-- The texts that a run can read: files by name, and the input. -/
structure Sources where
  file : String → Except ReadFault String
  input : Except ReadFault String

/-- Why a run stops before the first verdict. -/
inductive Failure where
  | unreadGrammar (name : String) (fault : ReadFault)
  | badGrammar (name : String) (e : GrammarError Kind)
  | conflict (g : Grammar Kind) (c : Conflict g)
  | unreadFile (name : String) (fault : ReadFault)
  | unreadInput (fault : ReadFault)

/-- What went wrong and why. -/
def because (what why : String) : String := s!"{what}\n\nCaused by:\n    {why}"

def Failure.message : Failure → String
  | unreadGrammar name fault => because s!"cannot read grammar {name}" fault.message
  | badGrammar name e => because s!"cannot load grammar {name}" e.message
  | conflict _ c => c.message
  | unreadFile name fault => because s!"cannot read {name}" fault.message
  | unreadInput fault => because "cannot read standard input" fault.message

/-- What was found out about one program. -/
structure Verdict where
  number : Nat
  /-- The tokens, if the text could be cut into any. -/
  tokens : Option (List (Token Kind))
  /-- The derivation as text, up to the error if there is one. -/
  steps : List String
  /-- The message of the error. -/
  error : Option String
  records : List Record

namespace Verdict

/-- The verdict on the program in the given line. -/
def of (l : Loaded) (lexer : Lexer Kind) (number : Nat) (program : String) : Verdict :=
  match lexer.tokenize program with
  | .error e => ⟨number, none, [], some e.message, []⟩
  | .ok tokens =>
    let records := l.table.parseRecords tokens
    match l.table.parse tokens with
    | none => ⟨number, some tokens, [], some CheckError.endless.message, records⟩
    | some ⟨derivation, error⟩ =>
      ⟨number, some tokens, derivation.map Step.describe, error.map ParseError.message, records⟩

/-- A token as its kind and its quoted text in parentheses. -/
def tokenText (t : Token Kind) : String := s!"{t.kind.name}({Text.quote t.lexeme})"

/-- The lines to print: the tokens and the steps if they are asked for, and the verdict. -/
def lines (o : Options) (v : Verdict) : List String :=
  let tokens := if o.tokens then v.tokens.toList.map fun tokens =>
    s!"{v.number}: tokens: " ++ " ".intercalate (tokens.map tokenText) else []
  let steps := if o.trace then v.steps.map ("    " ++ ·) else []
  let last := match v.error with
    | none => s!"{v.number}: ok"
    | some message => s!"{v.number}: error: {message}"
  tokens ++ steps ++ [last]

end Verdict

/-- What a run writes and whether all went well. -/
structure Outcome where
  output : String
  records : List Record
  failure : Option Failure
  rejected : Nat

namespace Outcome

/-- Zero only if nothing failed and no program was rejected. -/
def exitCode (o : Outcome) : Nat := if o.failure.isSome || 0 < o.rejected then 1 else 0

/-- A run that fails before it writes anything. -/
def failed (records : List Record) (failure : Failure) : Outcome := ⟨"", records, some failure, 0⟩

end Outcome

/-- The grammar that the options ask for, and the records of loading it. -/
def load (o : Options) (sources : Sources) : List Record × Except Failure Loaded :=
  match o.grammar with
  | none => (Postfix.grammar.warnings ++ Postfix.grammar.tableRecords, .ok .builtIn)
  | some name =>
    match sources.file name with
    | .error fault => ([], .error (.unreadGrammar name fault))
    | .ok text =>
      let records := Loaded.recordsOfText text
      match Loaded.ofText text with
      | .error (.grammar e) => (records, .error (.badGrammar name e))
      | .error (.conflict g c) => (records, .error (.conflict g c))
      | .ok l => (records ++ [⟨.info, .command, s!"loaded grammar {name}"⟩], .ok l)

/-- The text to check. -/
def input (o : Options) (sources : Sources) : Except Failure String :=
  match o.file with
  | some name =>
    match sources.file name with
    | .error fault => .error (.unreadFile name fault)
    | .ok text => .ok text
  | none =>
    match sources.input with
    | .error fault => .error (.unreadInput fault)
    | .ok text => .ok text

/-- The programs of a text, each with the number of its line. -/
def programs (text : String) : List (Nat × String) :=
  ((Text.lines text.toList).zipIdx 1).filterMap fun (line, number) =>
    match Text.content line with
    | [] => none
    | program => some (number, String.ofList program)

/-- The verdicts on the programs of a text, in the order of their lines. -/
def verdicts (o : Options) (l : Loaded) (text : String) : List Verdict :=
  let separators := (o.separators.map String.toList).getD defaultSeparators
  (programs text).map fun (number, program) => .of l (lexer separators) number program

/-- Lines as a text. -/
def unlines (lines : List String) : String := String.join (lines.map (· ++ "\n"))

/-- Loads the grammar, and prints its table or checks the programs of the input. -/
def run (o : Options) (sources : Sources) : Outcome :=
  match load o sources with
  | (records, .error failure) => .failed records failure
  | (records, .ok l) =>
    if o.printTable then ⟨l.table.toText, records, none, 0⟩
    else match input o sources with
      | .error failure => .failed records failure
      | .ok text =>
        let vs := verdicts o l text
        let rejected := vs.countP (·.error.isSome)
        ⟨unlines (vs.flatMap (·.lines o)),
          records ++ vs.flatMap (·.records) ++
            [⟨.debug, .command, s!"{rejected} program(s) rejected"⟩],
          none, rejected⟩

/-- The name under which the records of a topic are shown. -/
def topicName : Topic → String
  | .grammar => "rpn_ll1::parsing::grammar"
  | .sets => "rpn_ll1::parsing::sets"
  | .table => "rpn_ll1::parsing::table"
  | .machine => "rpn_ll1::parsing::parser"
  | .command => "rpncheck"

/-- The text with its lines after the first one indented. -/
def indent (text : String) : String :=
  String.ofList (text.toList.flatMap fun c => if c = '\n' then '\n' :: List.replicate 4 ' ' else [c])

/-- A record as it is shown: its level, five characters wide, its topic, and its text. -/
def recordLine (r : Record) : String :=
  let level := r.level.name
  let padding := String.ofList (List.replicate (5 - level.length) ' ')
  s!"[{level}{padding} {topicName r.topic}] {indent r.text}"

/-- What the run reports to a reader at the given level: its records and its failure. -/
def Outcome.report (o : Outcome) (limit : Option Level) : String :=
  let records := match limit with
    | none => []
    | some limit => Record.upTo limit o.records
  unlines (records.map recordLine ++ o.failure.toList.map fun f => s!"Error: {f.message}")

end Predictive.Command
