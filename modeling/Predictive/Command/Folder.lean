import Predictive.Command.Run

/-!
# Folders

The files of a folder as a value, and what reading one of them by its path gives. A path is the names
between its slashes; empty names and `.` stay where they are. There are no folders inside, so every
longer path leads astray, and so does every path that begins elsewhere.
-/

namespace Predictive.Command

/-- The files of a folder by their names. -/
structure Folder where
  files : List (String × Except ReadFault String)

namespace Folder

/-- The names of a path that lead somewhere else. -/
def steps (path : List Char) : List String :=
  ((Text.split (· == '/') path).map String.ofList).filter fun name => name ≠ "" ∧ name ≠ "."

/-- Whether the path asks for a folder by its end. -/
def asksForFolder (path : List Char) : Bool :=
  match (Text.split (· == '/') path).getLast? with
  | some last => last = [] || last = ['.']
  | none => false

def read (f : Folder) (path : String) : Except ReadFault String :=
  if path.toList.head? = some '/' then .error .missing
  else match steps path.toList with
    | [] => .error .isFolder
    | name :: names =>
      match f.files.lookup name with
      | none => .error (if name = ".." ∧ names.all (· = "..") then .isFolder else .missing)
      | some content =>
        if names.isEmpty && !asksForFolder path.toList then content else .error .notFolder

/-- What a run in the folder can read. -/
def sources (f : Folder) (input : Except ReadFault String) : Sources := ⟨f.read, input⟩

end Folder

end Predictive.Command
