/-!
# Locations

A location is a line and a column, both counted from one. Snippets are cut out of a larger
document; `Location.within` moves a location of a snippet to the document, given where the snippet
starts: only its first line shares a line with the text around it.
-/

namespace Componentry

/-- A line and a column. Diagnostics without a place carry `0:0`. -/
structure Location where
  line : Int
  column : Int
  deriving DecidableEq, Repr, Inhabited

namespace Location

/-- The start of a text that stands alone. -/
def start : Location := ⟨1, 1⟩

/-- The location of something that has no place in any text. -/
def nowhere : Location := ⟨0, 0⟩

/-- `line:column`. -/
def text (l : Location) : String := toString l.line ++ ":" ++ toString l.column

/-- The location `l` of a snippet, in the document in which the snippet starts at `base`. -/
def within (base l : Location) : Location :=
  if l.line ≤ 1 then ⟨base.line, base.column + l.column - 1⟩
  else ⟨base.line + l.line - 1, l.column⟩

/-- The location after `width` bytes of the same line. -/
def advance (l : Location) (width : Nat) : Location := ⟨l.line, l.column + width⟩

/-- The start of the next line. -/
def nextLine (l : Location) : Location := ⟨l.line + 1, 1⟩

end Location

end Componentry
