/-!
# Command line options

Arguments are read in two passes: `Argument.ofStrings?` recognises options, their values and file names,
and `Options.ofArguments?` collects them and refuses what is given twice.
-/

namespace Predictive.Command

/-- Options without a value. -/
inductive Switch where
  | tokens
  | trace
  | printTable
deriving DecidableEq, Repr

/-- Options with a value. -/
inductive Setting where
  | grammar
  | separators
deriving DecidableEq, Repr

inductive Argument where
  | switch (s : Switch)
  | setting (s : Setting) (value : String)
  | file (name : String)
deriving DecidableEq, Repr

/-- What a string can be where an option may stand. -/
inductive Shape where
  | complete (a : Argument)
  /-- An option whose value is the next string. -/
  | awaiting (s : Setting)
  | unknown
deriving DecidableEq, Repr

def Switch.ofName? : String → Option Switch
  | "tokens" => some tokens
  | "trace" => some trace
  | "print-table" => some printTable
  | _ => none

def Setting.ofName? : String → Option Setting
  | "grammar" => some grammar
  | "separators" => some separators
  | _ => none

def Setting.ofLetter? : Char → Option Setting
  | 'g' => some grammar
  | 's' => some separators
  | _ => none

/-- An option with its name in full, and its value after `=` if there is one. -/
def Shape.ofLong (name : List Char) (value : Option (List Char)) : Shape :=
  match Setting.ofName? (String.ofList name), Switch.ofName? (String.ofList name), value with
  | some s, _, some value => .complete (.setting s (String.ofList value))
  | some s, _, none => .awaiting s
  | none, some s, none => .complete (.switch s)
  | none, _, _ => .unknown

/-- An option of one letter, and what stands right after it: its value, with or without `=`. -/
def Shape.ofShort (letter : Char) (rest : List Char) : Shape :=
  match Setting.ofLetter? letter, rest with
  | none, _ => .unknown
  | some s, [] => .awaiting s
  | some s, '=' :: value => .complete (.setting s (String.ofList value))
  | some s, value => .complete (.setting s (String.ofList value))

def Shape.ofString (arg : String) : Shape :=
  match arg.toList with
  | '-' :: '-' :: long =>
    .ofLong (long.takeWhile (· != '=')) (long.dropWhile (· != '=')).tail?
  | '-' :: letter :: rest => .ofShort letter rest
  | _ => .complete (.file arg)

/-- Whether a string can be the value of the option before it: one that looks like an option cannot. -/
def isValue (arg : String) : Bool :=
  match arg.toList with
  | '-' :: _ :: _ => false
  | _ => true

namespace Argument

/-- The arguments that the strings are, unless one of them is no option or lacks its value. After `--`
every string is a file name. -/
def ofStrings? : List String → Option (List Argument)
  | [] => some []
  | arg :: args =>
    if arg = "--" then some (args.map .file)
    else match Shape.ofString arg, args with
      | .unknown, _ => none
      | .complete a, args => (ofStrings? args).map (a :: ·)
      | .awaiting _, [] => none
      | .awaiting s, value :: args =>
        if isValue value then (ofStrings? args).map (.setting s value :: ·) else none

end Argument

structure Options where
  grammar : Option String := none
  separators : Option String := none
  tokens : Bool := false
  trace : Bool := false
  printTable : Bool := false
  file : Option String := none
deriving DecidableEq, Repr

namespace Options

/-- A file name that may be given once and is not empty. -/
def setName (old : Option String) (name : String) : Option String :=
  if old.isSome || name.isEmpty then none else some name

/-- The options with one more argument, unless they have it already. -/
def add (o : Options) : Argument → Option Options
  | .switch .tokens => if o.tokens then none else some { o with tokens := true }
  | .switch .trace => if o.trace then none else some { o with trace := true }
  | .switch .printTable => if o.printTable then none else some { o with printTable := true }
  | .setting .grammar name => (setName o.grammar name).map fun name => { o with grammar := some name }
  | .setting .separators s =>
    if o.separators.isSome then none else some { o with separators := some s }
  | .file name => (setName o.file name).map fun name => { o with file := some name }

def ofArguments? (args : List Argument) : Option Options := args.foldlM add {}

/-- The options that a command line asks for, unless it is malformed. -/
def ofStrings? (args : List String) : Option Options :=
  (Argument.ofStrings? args).bind ofArguments?

end Options

end Predictive.Command
