import Predictive.Command.Run

/-!
# The command

Reads the files and the input that the options ask for, and writes what the run makes of them. The
environment variable `PREDICTIVE_LOG` asks for records by the name of a level.
-/

namespace Predictive.Command

/-- The bytes as a text. -/
def decode (bytes : ByteArray) : Except ReadFault String :=
  match String.fromUTF8? bytes with
  | some text => .ok text
  | none => .error .notText

def readText (name : String) : IO (Except ReadFault String) := do
  try
    return decode (← IO.FS.readBinFile name)
  catch
    | .noFileOrDirectory .. => return .error .missing
    | .inappropriateType _ 20 _ => return .error .notFolder
    | .inappropriateType _ 21 _ => return .error .isFolder
    | e => return .error (.other (toString e))

/-- Reads no file and no input but those that the options name. -/
def readSources (o : Options) : IO Sources := do
  let names := o.grammar.toList ++ o.file.toList
  let texts ← names.mapM fun name => return (name, ← readText name)
  let input ← if o.file.isSome || o.printTable then pure (.ok "")
    else decode <$> (← IO.getStdin).readBinToEnd
  return ⟨fun name => (texts.lookup name).getD (.error .missing), input⟩

end Predictive.Command

open Predictive Command in
def main (args : List String) : IO UInt32 := do
  match Options.ofStrings? args with
  | none =>
    IO.eprintln ("usage: [-g|--grammar FILE] [-s|--separators CHARS] [--tokens] [--trace] " ++
      "[--print-table] [FILE]")
    return 2
  | some options =>
    let limit := (← IO.getEnv "PREDICTIVE_LOG").bind Level.ofName?
    let outcome := run options (← readSources options)
    IO.eprint (outcome.report limit)
    IO.print outcome.output
    return outcome.exitCode.toUInt32
