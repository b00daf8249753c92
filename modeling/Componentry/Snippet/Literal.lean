import Componentry.Number.Decimal
import Componentry.Text.Quoted

/-!
# Literal values

The values that can be written down in a snippet: texts, numbers, truth values and `null`. A list
of literals is a value no snippet writes; it can only be handed to a validator, which it never
equals.

`Literal.source` writes a literal as source text. `Literal.display` is the plain form used inside
lists and for the literals of resolved types.
-/

namespace Componentry

open Number

/-- A literal value. -/
inductive Literal where
  | null
  | text (value : String)
  | number (value : Binary64)
  | bool (value : Bool)
  | list (items : List Literal)
  deriving Repr, Inhabited

namespace Literal

mutual

/-- The plain form: texts unquoted, an absent value as `<nil>`, lists in brackets. -/
def display : Literal → String
  | .null => "<nil>"
  | .text s => s
  | .number v => Layout.source.text v
  | .bool b => if b then "true" else "false"
  | .list items => "[" ++ displayList items ++ "]"

/-- Plain forms with a blank between them. -/
def displayList : List Literal → String
  | [] => ""
  | [x] => display x
  | x :: y :: rest => display x ++ " " ++ displayList (y :: rest)

end

def source : Literal → String
  | .null => "null"
  | .text s => Text.quote s
  | .number v => Layout.source.text v
  | .bool b => if b then "true" else "false"
  | .list items => (Literal.list items).display

/-- Equality of values. Lists are not compared. -/
def same : Literal → Literal → Bool
  | .null, .null => true
  | .text a, .text b => a == b
  | .number a, .number b => a.same b
  | .bool a, .bool b => a == b
  | _, _ => false

end Literal

end Componentry
