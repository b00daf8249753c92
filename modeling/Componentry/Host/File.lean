/-!
# Files and what can go wrong with them
-/

namespace Componentry

inductive EntryKind where
  | file | directory
  deriving DecidableEq, Repr, Inhabited

inductive FileAction where
  | open | read | makeDirectory
  deriving DecidableEq, Repr

def FileAction.name : FileAction → String
  | .open => "open"
  | .read => "read"
  | .makeDirectory => "mkdir"

inductive FileCause where
  | missing | notDirectory | isDirectory | exists | notPath | tooLong
  | other (text : String)
  deriving DecidableEq, Repr

def FileCause.text : FileCause → String
  | .missing => "no such file or directory"
  | .notDirectory => "not a directory"
  | .isDirectory => "is a directory"
  | .exists => "file exists"
  | .notPath => "invalid argument"
  | .tooLong => "file name too long"
  | .other text => text

/-- A failed action on a path. -/
structure FileError where
  action : FileAction
  path : String
  cause : FileCause
  deriving DecidableEq, Repr

def FileError.message (e : FileError) : String :=
  e.action.name ++ " " ++ e.path ++ ": " ++ e.cause.text

end Componentry
