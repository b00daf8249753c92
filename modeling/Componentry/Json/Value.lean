import Componentry.Number.Decimal
import Componentry.Text.Quoted

/-!
# JSON values

A value of a JSON document. An object is the list of its entries, so keys keep their order and may
be repeated. Documents are written compactly or with two spaces of indentation for each level; in
both, the characters `<`, `>` and `&` and the two line separators of Unicode are escaped, so that
a document can stand inside a page.
-/

namespace Componentry

/-- JSON values. Whole numbers of the program itself are kept apart from measured ones. -/
inductive Json where
  | null
  | bool (value : Bool)
  | integer (value : Int)
  | number (value : Binary64)
  | text (value : String)
  | list (items : List Json)
  | object (entries : List (String × Json))
  deriving Inhabited

namespace Json

/-- Characters that are written by their number. -/
def isEscaped (c : Char) : Bool :=
  c.toNat < 0x20 || c = '<' || c = '>' || c = '&' || c.toNat = 0x2028 || c.toNat = 0x2029

/-- One character of a text. -/
def escapeChar (c : Char) : List Char :=
  match c with
  | '"' => ['\\', '"']
  | '\\' => ['\\', '\\']
  | '\n' => ['\\', 'n']
  | '\r' => ['\\', 'r']
  | '\t' => ['\\', 't']
  | '\x08' => ['\\', 'b']
  | '\x0c' => ['\\', 'f']
  | _ => if isEscaped c then '\\' :: 'u' :: Text.hex 4 c.toNat else [c]

/-- A text between quotes. -/
def quoted (s : String) : String :=
  String.ofList ('"' :: s.toList.flatMap escapeChar ++ ['"'])

mutual

/-- A value without blanks. -/
def compact : Json → String
  | .null => "null"
  | .bool b => if b then "true" else "false"
  | .integer n => toString n
  | .number v => Number.Layout.document.text v
  | .text s => quoted s
  | .list items => "[" ++ compactItems items ++ "]"
  | .object entries => "\x7b" ++ compactEntries entries ++ "\x7d"

/-- Items with commas between them. -/
def compactItems : List Json → String
  | [] => ""
  | [v] => v.compact
  | v :: w :: vs => v.compact ++ "," ++ compactItems (w :: vs)

/-- Entries with commas between them. -/
def compactEntries : List (String × Json) → String
  | [] => ""
  | [(k, v)] => quoted k ++ ":" ++ v.compact
  | (k, v) :: e :: es => quoted k ++ ":" ++ v.compact ++ "," ++ compactEntries (e :: es)

end

/-- The blanks in front of a line at a level. -/
def margin (level : Nat) : String := String.ofList (List.replicate (2 * level) ' ')

mutual

/-- A value at a level of indentation; items and entries stand on lines of their own. -/
def indentedAt (level : Nat) : Json → String
  | .list [] => "[]"
  | .list (v :: vs) =>
    "[\n" ++ indentedItems (level + 1) (v :: vs) ++ "\n" ++ margin level ++ "]"
  | .object [] => "\x7b\x7d"
  | .object (e :: es) =>
    "\x7b\n" ++ indentedEntries (level + 1) (e :: es) ++ "\n" ++ margin level ++ "\x7d"
  | .null => "null"
  | .bool b => if b then "true" else "false"
  | .integer n => toString n
  | .number v => Number.Layout.document.text v
  | .text s => quoted s

/-- Items on lines of their own. -/
def indentedItems (level : Nat) : List Json → String
  | [] => ""
  | [v] => margin level ++ v.indentedAt level
  | v :: w :: vs =>
    margin level ++ v.indentedAt level ++ ",\n" ++ indentedItems level (w :: vs)

/-- Entries on lines of their own. -/
def indentedEntries (level : Nat) : List (String × Json) → String
  | [] => ""
  | [(k, v)] => margin level ++ quoted k ++ ": " ++ v.indentedAt level
  | (k, v) :: e :: es =>
    margin level ++ quoted k ++ ": " ++ v.indentedAt level ++ ",\n" ++
      indentedEntries level (e :: es)

end

/-- A document of several lines. -/
def indented (v : Json) : String := v.indentedAt 0

/-- The value of the last entry with a key. -/
def get? (v : Json) (key : String) : Option Json :=
  match v with
  | .object entries => (entries.reverse.find? (·.1 == key)).map (·.2)
  | _ => none

end Json

end Componentry
