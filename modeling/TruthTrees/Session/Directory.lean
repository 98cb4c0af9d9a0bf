import TruthTrees.Argument.Basic

/-!
# Directories

The files of one directory without subdirectories, and what a path means in it. A path is a list of
steps, taken one after the other; the first step that fails decides what is wrong with the path.
-/

namespace TruthTrees

structure Directory where
  files : List (String × List UInt8)
  deriving DecidableEq

namespace Directory

def find? (d : Directory) (name : String) : Option (List UInt8) :=
  d.files.lookup name

def contains (d : Directory) (name : String) : Bool :=
  (d.find? name).isSome

def put (d : Directory) (name : String) (content : List UInt8) : Directory :=
  ⟨(name, content) :: d.files.filter (·.1 ≠ name)⟩

inductive Place where
  /-- The directory itself. -/
  | here
  /-- A directory around it, of which nothing is known. -/
  | outside
  | file (name : String) (content : List UInt8)
  deriving DecidableEq

def nameLimit : Nat := 255

def pathLimit : Nat := 4095

/-- Is the step a name, and not a way to stay or to leave? -/
def isName (step : String) : Bool :=
  step ≠ "." && step ≠ ".."

/-- Take one step. A name is only looked up in a directory, and its length is checked then. -/
def enter (d : Directory) (place : Place) (step : String) : Except FileFault Place :=
  match place with
  | .file _ _ => .error .notDirectory
  | .here =>
    if step = "." then .ok .here
    else if step = ".." then .ok .outside
    else if step.utf8ByteSize > nameLimit then .error .nameTooLong
    else
      match d.find? step with
      | some content => .ok (.file step content)
      | none => .error .notFound
  | .outside =>
    if !isName step then .ok .outside
    else if step.utf8ByteSize > nameLimit then .error .nameTooLong
    else .error .notFound

def itinerary (path : String) : Except FileFault (Place × List String) :=
  if path.isEmpty then .error .notFound
  else if path.utf8ByteSize > pathLimit then .error .nameTooLong
  else .ok (if path.startsWith "/" then .outside else .here, (path.splitOn "/").filter (· ≠ ""))

/-- The content of the file to which a path leads. A slash at the end asks for a directory. -/
def read (d : Directory) (path : String) : Except FileFault (List UInt8) := do
  let (start, steps) ← itinerary path
  match ← steps.foldlM d.enter start with
  | .here | .outside => throw .isDirectory
  | .file _ content => if path.endsWith "/" then throw .notDirectory else return content

/-- Give the file to which a path leads a new content. All steps but the last have to lead to a
directory; the last one names the file, which need not be there yet, so that a slash behind it is
refused before the name is looked at. What is written outside is not seen here. -/
def write (d : Directory) (path : String) (content : List UInt8) :
    Except FileFault Directory := do
  let (start, steps) ← itinerary path
  match steps.getLast? with
  | none => throw .isDirectory
  | some last =>
    match ← steps.dropLast.foldlM d.enter start with
    | .file _ _ => throw .notDirectory
    | .here =>
      fileName path last
      return d.put last content
    | .outside =>
      fileName path last
      return d
where
  /-- Check that the last step of a path can name a file. -/
  fileName (path last : String) : Except FileFault Unit := do
    if !isName last || path.endsWith "/" then throw .isDirectory
    if last.utf8ByteSize > nameLimit then throw .nameTooLong

end Directory

end TruthTrees
