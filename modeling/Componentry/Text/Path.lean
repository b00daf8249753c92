import Componentry.Text.Utf8

/-!
# Slash-separated paths

A path is a text of elements with slashes between them. `clean` gives the shortest path to the same
place, `join` puts two paths together, `ext` is the suffix of the last element from its last dot on.
-/

namespace Componentry.Path

/-- The part of a list after its last `sep`, or all of it. -/
def afterLast (sep : Char) (cs : List Char) : List Char :=
  (cs.reverse.takeWhile (· ≠ sep)).reverse

/-- What stands between the slashes of a path, which may be nothing. -/
def parts (s : String) : List String := (s.toList.splitOn '/').map String.ofList

/-- The elements of a path. -/
def elements (s : String) : List String := (parts s).filter (· ≠ "")

/-- The suffix of the last element from its last dot on; empty if it has no dot. -/
def ext (s : String) : String :=
  let last := afterLast '/' s.toList
  if last.contains '.' then String.ofList ('.' :: afterLast '.' last) else ""

/-- The text without a suffix, if it ends in it. -/
def trimSuffix (s suffix : String) : String :=
  if s.endsWith suffix then String.ofList (s.toList.take (s.length - suffix.length)) else s

/-- The elements of a path in reverse with `.` and `..` carried out; what leads above the start is
kept only in a path that is not rooted. -/
def resolveDots (rooted : Bool) : List String → List String → List String
  | done, [] => done
  | done, e :: es =>
    if e = "." || e = "" then resolveDots rooted done es
    else if e = ".." then
      match done with
      | [] => resolveDots rooted (if rooted then [] else [".."]) es
      | last :: before =>
        if last = ".." then resolveDots rooted (".." :: done) es
        else resolveDots rooted before es
    else resolveDots rooted (e :: done) es

/-- The path starts at the root. -/
def isRooted (s : String) : Bool := s.startsWith "/"

/-- The shortest path to the same place. -/
def clean (s : String) : String :=
  let body := String.intercalate "/" (resolveDots (isRooted s) [] (elements s)).reverse
  if isRooted s then "/" ++ body else if body = "" then "." else body

/-- Paths put together; empty ones are left out. -/
def join (parts : List String) : String :=
  match parts.filter (· ≠ "") with
  | [] => ""
  | ps => clean (String.intercalate "/" ps)

/-- The path without its last element. -/
def dir (s : String) : String :=
  let cs := s.toList
  clean (String.ofList (cs.take (cs.length - (afterLast '/' cs).length)))

/-- The last element of a path. -/
def base (s : String) : String :=
  if s = "" then "."
  else match (elements s).getLast? with
    | some e => e
    | none => "/"

end Componentry.Path
