import Contracts.Text

/-!
# Paths

A path is a text whose names are divided by slashes. Empty names and single dots are no steps. Names
and whole paths have a greatest length, counted in bytes.
-/

set_option autoImplicit false

namespace Contracts.CommandLine

/-- The names of a path, single dots among them. -/
def pathNames (path : String) : List String :=
  ((Text.splitAt '/' path.toList).map String.ofList).filter (· != "")

/-- The steps of a path. -/
def pathSteps (path : String) : List String := (pathNames path).filter (· != ".")

/-- Whether a path starts at the root of all files. -/
def isAbsolute (path : String) : Bool := Text.startsWith ['/'] path.toList

/-- The path of a name in a directory. An absolute name stands for itself. -/
def joinPath (dir name : String) : String :=
  if dir.isEmpty || isAbsolute name then name
  else if dir.toList.getLast? = some '/' then dir ++ name
  else dir ++ "/" ++ name

/-- The steps of the directories that are made for a path to a directory. A dot at the end is looked
up in the directory before it, which therefore is not made but has to be there. -/
def dirSteps (path : String) : List String :=
  if (pathNames path).getLast? = some "." then (pathSteps path).dropLast else pathSteps path

/-- The greatest length of a name. -/
def longestName : Nat := 255

/-- The greatest length of a path. -/
def longestPath : Nat := 4095

/-- Whether a name is too long for any file. -/
def isLongName (name : String) : Bool := longestName < name.utf8ByteSize

/-- The name of what a path leads to, unless it leads upwards or nowhere. -/
def fileName? (path : String) : Option String :=
  match (pathSteps path).getLast? with
  | some ".." | none => none
  | some name => some name

/-- A name without its extension. The dot at the start of a name begins no extension. -/
def stem (name : String) : String :=
  match name.toList.reverse.dropWhile (· != '.') with
  | [] | [_] => name
  | _ :: before => String.ofList before.reverse

/-- The name that reports give to a program, from the path of its file. -/
def programName (path : String) : String :=
  match fileName? path with
  | some name => stem name
  | none => "module"

end Contracts.CommandLine
