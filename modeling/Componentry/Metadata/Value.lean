import Componentry.Guard.Basic
import Componentry.Json.Value
import Componentry.Snippet.Print

/-!
# Metadata values

The values that are registered for a class: texts, flags, lists and objects, and inside them
expressions of the author, kept as they are, and guards. An object is the list of its entries; the
operations on it keep their order.

A value is printed as source text, or written as a JSON document. There an author's literal is that
literal; other expressions and guards become objects that hold their source text.
-/

namespace Componentry

/-- Metadata values. -/
inductive MetaValue where
  | text (value : String)
  | flag (value : Bool)
  | list (items : List MetaValue)
  | object (entries : List (String × MetaValue))
  | source (expr : Expr)
  | guard (guard : Guard)
  deriving Inhabited

abbrev Entries := List (String × MetaValue)

namespace Entries

/-- The value of the first entry with a key. -/
def get? (es : Entries) (key : String) : Option MetaValue := es.lookup key

def has (es : Entries) (key : String) : Bool := (es.get? key).isSome

/-- Replace the value of a key, or put a new entry at the end. -/
def put : Entries → String → MetaValue → Entries
  | [], key, v => [(key, v)]
  | e :: es, key, v => if e.1 == key then (key, v) :: es else e :: put es key v

/-- Put an entry first and take away any other with its key. -/
def putFirst (es : Entries) (key : String) (v : MetaValue) : Entries :=
  (key, v) :: es.filter (·.1 != key)

def keys (es : Entries) : List String := es.map (·.1)

end Entries

namespace MetaValue

mutual

def print : MetaValue → String
  | .text s => Text.quote s
  | .flag b => if b then "true" else "false"
  | .list items => "[" ++ printItems items ++ "]"
  | .object [] => "\x7b\x7d"
  | .object (e :: es) => "\x7b " ++ printEntries (e :: es) ++ " \x7d"
  | .source e => e.print
  | .guard g => g.text

/-- Items with commas between them. -/
def printItems : List MetaValue → String
  | [] => ""
  | [v] => v.print
  | v :: w :: vs => v.print ++ ", " ++ printItems (w :: vs)

/-- Entries with commas between them. -/
def printEntries : List (String × MetaValue) → String
  | [] => ""
  | [(k, v)] => Text.keyText k ++ ": " ++ v.print
  | (k, v) :: e :: es => Text.keyText k ++ ": " ++ v.print ++ ", " ++ printEntries (e :: es)

end

/-- An author's literal as a JSON value. -/
def literalJson? : Expr → Option Json
  | .literal _ .null => some .null
  | .literal _ (.text s) => some (.text s)
  | .literal _ (.number v) => some (.number v)
  | .literal _ (.bool b) => some (.bool b)
  | _ => none

mutual

def toJson : MetaValue → Json
  | .text s => .text s
  | .flag b => .bool b
  | .list items => .list (itemsJson items)
  | .object entries => .object (entriesJson entries)
  | .source e => (literalJson? e).getD (.object [("$expr", .text e.print)])
  | .guard g => .object [("$guard", .text g.text)]

/-- Items as JSON values. -/
def itemsJson : List MetaValue → List Json
  | [] => []
  | v :: vs => v.toJson :: itemsJson vs

/-- Entries with JSON values. -/
def entriesJson : List (String × MetaValue) → List (String × Json)
  | [] => []
  | (k, v) :: es => (k, v.toJson) :: entriesJson es

end

end MetaValue

mutual

/-- The entries of an object literal. Its values are kept as expressions, except that object
literals inside it become objects too; of two entries with the same key the later one counts. -/
def Entries.ofProperties (sofar : Entries) : List Property → Entries
  | [] => sofar
  | .mk _ key value :: ps => Entries.ofProperties (sofar.put key (MetaValue.ofExpr value)) ps

/-- An expression as a value. -/
def MetaValue.ofExpr : Expr → MetaValue
  | .object _ ps => .object (Entries.ofProperties [] ps)
  | .literal l v => .source (.literal l v)
  | .name l n => .source (.name l n)
  | .self l => .source (.self l)
  | .parent l => .source (.parent l)
  | .member l o n => .source (.member l o n)
  | .index l o k => .source (.index l o k)
  | .call l c as => .source (.call l c as)
  | .create l c as => .source (.create l c as)
  | .array l es => .source (.array l es)
  | .arrow l ps b => .source (.arrow l ps b)
  | .binary l op a b => .source (.binary l op a b)
  | .unary l op a => .source (.unary l op a)
  | .assign l t v => .source (.assign l t v)

end

end Componentry
