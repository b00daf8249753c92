import Componentry.Host.File
import Componentry.Text.Path

/-!
# Directories

A directory with everything below it, as a value: where it stands, the files with their contents,
and the folders. Places are lists of names from the root. A path leads to a place step by step, from
the root or from where the directory stands, and every place it leads through must be a folder. So
one place can be reached by many paths.

A path may lead out of the directory. Nothing is known of what stands there but the folders above
the directory, and what is put there.
-/

namespace Componentry

/-- The names that lead to a place from the root. -/
abbrev Place := List String

/-- The number of bytes that a name may have. -/
def maxNameLength : Nat := 255

/-- The number of bytes that a path may have. -/
def maxPathLength : Nat := 4095

structure Directory where
  /-- Where the directory stands. -/
  here : Place
  files : List (Place × Bytes)
  folders : List Place

namespace Directory

/-- An empty directory. -/
def empty : Directory := ⟨["work"], [], []⟩

/-- The place is the directory itself or above it. -/
def isKnownFolder (d : Directory) (p : Place) : Bool := p.isPrefixOf d.here

/-- What stands at a place. -/
def kindAt (d : Directory) (p : Place) : Option EntryKind :=
  if d.isKnownFolder p then some .directory
  else if (d.files.lookup p).isSome then some .file
  else if d.folders.contains p then some .directory
  else none

/-- One step of a path. There is nothing above the root. -/
def step (d : Directory) (p : Place) (name : String) : Except FileCause Place :=
  match d.kindAt p with
  | none => .error .missing
  | some .file => .error .notDirectory
  | some .directory =>
    if name = "" || name = "." then .ok p
    else if name = ".." then .ok p.dropLast
    else if (Text.utf8 name).length > maxNameLength then .error .tooLong
    else .ok (p ++ [name])

/-- The place that a path leads to. -/
def locate (d : Directory) (path : String) : Except FileCause Place :=
  if path.toList.contains '\x00' then .error .notPath
  else if path = "" then .error .missing
  else if (Text.utf8 path).length > maxPathLength then .error .tooLong
  else (Path.parts path).foldlM d.step (if path.startsWith "/" then [] else d.here)

/-- What a path leads to. -/
def kind? (d : Directory) (path : String) : Option EntryKind :=
  match d.locate path with
  | .ok p => d.kindAt p
  | .error _ => none

def read (d : Directory) (path : String) : Except FileError Bytes :=
  match d.locate path with
  | .error cause => .error ⟨.open, path, cause⟩
  | .ok p =>
    match d.kindAt p with
    | some .directory => .error ⟨.read, path, .isDirectory⟩
    | _ =>
      match d.files.lookup p with
      | some content => .ok content
      | none => .error ⟨.open, path, .missing⟩

/-- Files with the content of one replaced, or with one more. -/
def setFile : List (Place × Bytes) → Place → Bytes → List (Place × Bytes)
  | [], p, content => [(p, content)]
  | (q, old) :: rest, p, content =>
    if q = p then (q, content) :: rest else (q, old) :: setFile rest p content

/-- Replace the content of a file, or make the file. -/
def write (d : Directory) (path : String) (content : Bytes) : Except FileError Directory :=
  match d.locate path with
  | .error cause => .error ⟨.open, path, cause⟩
  | .ok p =>
    if d.kindAt p = some .directory then .error ⟨.open, path, .isDirectory⟩
    else .ok { d with files := setFile d.files p content }

/-- A path without the slashes at its end. -/
def trimSlashes (path : String) : String :=
  String.ofList (path.toList.reverse.dropWhile (· = '/')).reverse

/-- Make one folder. Slashes may follow its name. -/
def makeDirectory (d : Directory) (path : String) : Except FileError Directory :=
  let name := trimSlashes path
  match d.locate (if name = "" then path else name) with
  | .error cause => .error ⟨.makeDirectory, path, cause⟩
  | .ok p =>
    if (d.kindAt p).isSome then .error ⟨.makeDirectory, path, .exists⟩
    else .ok { d with folders := d.folders ++ [p] }

/-- Take a file away. -/
def remove (d : Directory) (path : String) : Directory :=
  match d.locate path with
  | .error _ => d
  | .ok p => { d with files := d.files.filter (·.1 ≠ p) }

/-- The folders above a place. -/
def foldersAbove (p : Place) : List Place :=
  (List.range p.length).filterMap fun n => if n = 0 then none else some (p.take n)

/-- A directory with one more file, and the folders that lead to it. -/
def place (d : Directory) (p : Place) (content : Bytes) : Directory :=
  let missing := (foldersAbove p).filter fun f => !d.folders.contains f
  { d with files := setFile d.files p content, folders := d.folders ++ missing }

/-- A directory with the files at these paths. -/
def ofFiles (files : List (String × Bytes)) : Directory :=
  files.foldl (fun d f => d.place (d.here ++ Path.elements f.1) f.2) empty

/-- The files in a directory that another does not have, or has with another content. -/
def changes (before after : Directory) : List (String × Bytes) :=
  (after.files.filter fun f =>
      after.here.isPrefixOf f.1 && before.files.lookup f.1 ≠ some f.2).map
    fun f => (String.intercalate "/" (f.1.drop after.here.length), f.2)

end Directory

end Componentry
