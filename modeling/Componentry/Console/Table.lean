import Componentry.Console.Style
import Componentry.Text.Utf8

/-!
# Tables

A table has one row for each key, and the values stand below one another. Widths are counted in
bytes.
-/

namespace Componentry

/-- The width of a text. -/
def byteWidth (s : String) : Nat := (Text.utf8 s).length

/-- A text filled up with spaces. -/
def padded (width : Nat) (s : String) : String :=
  s ++ String.ofList (List.replicate (width - byteWidth s) ' ')

/-- The rows of a table, one line each. -/
def tableText (colors : Bool) (rows : List (String × String)) : String :=
  let width := (rows.map fun r => byteWidth r.1).foldl max 0
  String.join (rows.map fun (key, value) =>
    Style.span [.cyan] colors (padded (width + 1) (key ++ ":")) ++ " " ++ value ++ "\n")

/-- A title above a line of its width. -/
def headerText (colors : Bool) (title : String) : String :=
  Style.wrap [.bold, .cyan] colors title ++ "\n" ++
    Style.wrap [.gray] colors (String.ofList (List.replicate (byteWidth title) '─')) ++ "\n"

end Componentry
