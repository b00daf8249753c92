import Componentry.Host.File
import Componentry.Text.Utf8

/-!
# What a program needs from where it runs

A host has files, environment variables, a clock, channels to write on and perhaps someone to ask.
Commands are written for any host: the one of a real program acts on the machine, the one in
`Host.Rehearsal` on a value.
-/

namespace Componentry

/-- Where a text goes: results, complaints, and notes to whoever sits at the terminal. -/
inductive Channel where
  | result | complaint | note
  deriving DecidableEq, Repr

/-- A question with the answer that is taken if none is given. -/
structure Question where
  text : String
  default : String
  /-- The only answers, if there are any. -/
  options : List String := []

/-- Points in time, in nanoseconds. -/
abbrev Time := Int

/-- What a program needs from where it runs. -/
class Host (m : Type → Type) where
  /-- What stands at a path, if anything can be seen there. -/
  kind? : String → m (Option EntryKind)
  /-- The content of a file. -/
  read : String → m (Except FileError Bytes)
  /-- Replace the content of a file, or make the file. -/
  write : String → Bytes → m (Except FileError Unit)
  /-- Make one directory. -/
  makeDirectory : String → m (Except FileError Unit)
  /-- The value of an environment variable. -/
  environment? : String → m (Option String)
  /-- The current time. -/
  now : m Time
  /-- Write a text on a channel. -/
  say : Channel → String → m Unit
  /-- Ask a question; there is no answer if no one is there to give it. -/
  ask : Question → m (Option String)

namespace Host

/-- The path above a path: what stands before the slash before its last name. -/
def pathAbove? (path : String) : Option String :=
  match (path.toList.reverse.dropWhile (· = '/')).dropWhile (· ≠ '/') with
  | _ :: c :: cs => some (String.ofList (c :: cs).reverse)
  | _ => none

/-- At most `n` paths above a path, from the top, and the path itself. -/
def pathsWithin : Nat → String → List String
  | 0, path => [path]
  | n + 1, path => ((pathAbove? path).map (pathsWithin n)).getD [] ++ [path]

/-- The paths above a path, from the top, and the path itself. -/
def pathsTo (path : String) : List String := pathsWithin path.length path

/-- Make every directory of a list that is not there. -/
def makeMissing {m : Type → Type} [Monad m] [Host m] : List String → m (Except FileError Unit)
  | [] => return .ok ()
  | path :: paths => do
    match ← Host.kind? path with
    | some .directory => makeMissing paths
    | some .file => return .error ⟨.makeDirectory, path, .notDirectory⟩
    | none =>
      match ← Host.makeDirectory path with
      | .ok () => makeMissing paths
      | .error e => return .error e

/-- Make a directory and every directory above it. -/
def makeDirectories {m : Type → Type} [Monad m] [Host m] (path : String) :
    m (Except FileError Unit) :=
  makeMissing (pathsTo path)

end Host

end Componentry
