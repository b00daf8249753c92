import Componentry.Location

/-!
# YAML documents

A document is a tree of scalars, sequences and mappings. Every node keeps the location of its first
character, and a scalar keeps the style in which it is written: only plain scalars can be something
other than a text.
-/

namespace Componentry.Yaml

/-- How a scalar is written. -/
inductive Style where
  | plain | singleQuoted | doubleQuoted | literal | folded
  deriving DecidableEq, Repr, Inhabited

/-- The style is a pair of quotes. -/
def Style.isQuoted : Style → Bool
  | .singleQuoted | .doubleQuoted => true
  | _ => false

/-- Nodes of a document. -/
inductive Node where
  | scalar (loc : Location) (style : Style) (value : String)
  | sequence (loc : Location) (items : List Node)
  | mapping (loc : Location) (entries : List (Node × Node))
  deriving Inhabited

def Node.loc : Node → Location
  | .scalar l _ _ | .sequence l _ | .mapping l _ => l

/-- A text that is no document, and where. -/
structure Malformed where
  loc : Location
  deriving DecidableEq, Repr

/-- A way to read the first document of a text, if it has one. -/
abbrev Reader := String → Except Malformed (Option Node)

/-- A value that is left out. -/
def Node.absent (loc : Location) : Node := .scalar loc .plain ""

end Componentry.Yaml
