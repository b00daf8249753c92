import Componentry.Guard.Basic
import Componentry.Json.Value

/-!
# Runtime values

The values that guards test, as far as guards can tell them apart.
-/

namespace Componentry

/-- Runtime values. An object lists its fields; each name counts where it stands first. -/
inductive Value where
  | undefined
  | null
  | bool (value : Bool)
  | text (value : String)
  | number (value : Binary64)
  | bigint (value : Int)
  | symbol (description : String)
  | list (items : List Value)
  | record (fields : List (String × Value))
  /-- An instance of classes, given by their identifiers. -/
  | inst (classes : List String)
  /-- A value of a kind that guards do not know. -/
  | untagged
  deriving Inhabited

namespace Value

def tag : Value → String
  | .undefined => "undefined"
  | .null => "null"
  | .bool _ => "boolean"
  | .text _ => "string"
  | .number _ => "number"
  | .bigint _ => "bigint"
  | .symbol _ => "symbol"
  | .list _ | .record _ | .inst _ => "object"
  | .untagged => "unknown"

/-- The value equals a literal. -/
def equals : Value → Literal → Bool
  | .number v, .number w => v.same w
  | .text s, .text t => s == t
  | .bool a, .bool b => a == b
  | .null, .null => true
  | _, _ => false

/-- The value is absent. -/
def isUndefined : Value → Bool
  | .undefined => true
  | _ => false

mutual

/-- The value that a JSON document writes. Of entries with one key the last counts. -/
def ofJson : Json → Value
  | .null => .null
  | .bool b => .bool b
  | .integer n => .number (Binary64.ofInt n)
  | .number n => .number n
  | .text s => .text s
  | .list vs => .list (ofJsonList vs)
  | .object es => .record (ofJsonEntries es [])

def ofJsonList : List Json → List Value
  | [] => []
  | v :: vs => ofJson v :: ofJsonList vs

/-- The values of entries, the last first, in front of others. -/
def ofJsonEntries : List (String × Json) → List (String × Value) → List (String × Value)
  | [], done => done
  | (key, v) :: es, done => ofJsonEntries es ((key, ofJson v) :: done)

end

end Value

end Componentry
