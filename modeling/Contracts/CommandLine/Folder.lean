import Contracts.CommandLine.Run

/-!
# Runs on given files

A host without a machine: the files are a value, the solvers have fixed outputs, and what a run
prints and writes is collected. A place in the folder is the list of the names that lead to it. Of
what lies outside of the folder only the directories on the way up are known.
-/

set_option autoImplicit false

namespace Contracts.CommandLine

/-- The files and directories of a folder. -/
structure Folder where
  files : List (List String × String)
  /-- Directories, also those that hold no file. -/
  dirs : List (List String)

/-- Why a place cannot be used. -/
inductive PlaceError where
  | missing | notADirectory | isADirectory | nameTooLong | zeroByte
  deriving DecidableEq, Repr

/-- The message of an error. -/
def PlaceError.message : PlaceError → String
  | missing => "No such file or directory (os error 2)"
  | notADirectory => "Not a directory (os error 20)"
  | isADirectory => "Is a directory (os error 21)"
  | nameTooLong => "File name too long (os error 36)"
  | zeroByte => "file name contained an unexpected NUL byte"

namespace Folder

def isFile (d : Folder) (place : List String) : Bool := (d.files.lookup place).isSome

def isDir (d : Folder) (place : List String) : Bool := place.isEmpty || d.dirs.contains place

/-- The folder with a file, in the directories that lead to it. -/
def put (d : Folder) (place : List String) (text : String) : Folder :=
  { files := (place, text) :: d.files.filter (·.1 != place)
    dirs := (List.range place.length).map place.take ++ d.dirs }

/-- The folder with the given files. -/
def ofFiles (files : List (String × String)) : Folder :=
  files.foldl (fun d (path, text) => d.put (pathSteps path) text) { files := [], dirs := [] }

/-- Whether a path can only lead to a directory. -/
def endsInDirectory (path : String) : Bool :=
  match path.toList.reverse with
  | '/' :: _ | ['.'] | '.' :: '/' :: _ => true
  | _ => false

/-- What comes of steps from a directory outside of the folder. -/
def outside : List String → PlaceError
  | [] => .isADirectory
  | step :: steps =>
    if step = ".." then outside steps else if isLongName step then .nameTooLong else .missing

/-- The place that the steps lead to from a place. -/
def walk (d : Folder) : List String → List String → Except PlaceError (List String)
  | place, [] => .ok place
  | place, step :: steps =>
    if d.isFile place then .error .notADirectory
    else if !d.isDir place then .error .missing
    else if step = ".." then
      if place.isEmpty then .error (outside steps) else d.walk place.dropLast steps
    else if isLongName step then .error .nameTooLong
    else d.walk (place ++ [step]) steps

/-- The place of a path. Whether the text can be a path at all is seen before any name is looked
up. -/
def locate (d : Folder) (path : String) : Except PlaceError (List String) :=
  if path.toList.contains '\x00' then .error .zeroByte
  else if path.isEmpty then .error .missing
  else if longestPath < path.utf8ByteSize then .error .nameTooLong
  else if isAbsolute path then .error (outside (pathSteps path))
  else d.walk [] (pathSteps path)

/-- The text of a file. -/
def read (d : Folder) (path : String) : Except PlaceError String := do
  let place ← d.locate path
  match d.files.lookup place with
  | some text => if endsInDirectory path then .error .notADirectory else .ok text
  | none => if d.isDir place then .error .isADirectory else .error .missing

/-- The folder with the directories that the steps lead through, unless one of them cannot be
made. -/
def makeDirs (d : Folder) : List String → List String → Option Folder
  | _, [] => some d
  | place, step :: steps =>
    if step = ".." then
      if place.isEmpty then none else d.makeDirs place.dropLast steps
    else
      let place := place ++ [step]
      if isLongName step || d.isFile place then none
      else makeDirs { d with dirs := place :: d.dirs } place steps

/-- The folder with a file written into a directory, which is made if need be. A file that cannot
be written is left out. -/
def write (d : Folder) (dir name text : String) : Folder :=
  if isAbsolute dir then d
  else match d.makeDirs [] (dirSteps dir) with
    | none => d
    | some d =>
      match d.locate (joinPath dir name) with
      | .error _ => d
      | .ok file => if d.isDir file then d else d.put file text

end Folder

/-- What a run has left behind. Lines are in the order of printing. -/
structure Trace where
  folder : Folder
  out : List String
  err : List String

/-- The host of a folder and of solvers with fixed outputs, standard and error output of each. No
time passes. -/
def Folder.host (outputs : SolverKind → Option (String × String)) : Host (StateM Trace) where
  readFile := fun path => do
    return ((← get).folder.read path).mapError PlaceError.message
  writeFile := fun dir name text =>
    modify fun t => { t with folder := t.folder.write dir name text }
  solver := fun kind _ =>
    pure ((outputs kind).map fun (out, err) => fun _ => pure (readAnswer out err))
  clock := pure 0
  printOut := fun line => modify fun t => { t with out := t.out ++ [line] }
  printErr := fun line => modify fun t => { t with err := t.err ++ [line] }
  palette := { colored := false }

/-- Runs the command line on a folder. -/
def Folder.run (d : Folder) (outputs : SolverKind → Option (String × String)) (args : List String)
    (envSolver : Option String) : Exit × Trace :=
  (Folder.host outputs).run args envSolver { folder := d, out := [], err := [] }

/-- The files of a folder that another did not have, with their paths. -/
def Folder.created (d before : Folder) : List (String × String) :=
  (d.files.filter fun (place, _) => !before.isFile place).map fun (place, text) =>
    ("/".intercalate place, text)

end Contracts.CommandLine
