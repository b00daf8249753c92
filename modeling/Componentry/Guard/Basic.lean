import Componentry.Snippet.Literal

/-!
# Guards

A guard is a test of runtime values. Guards are built from tests of the kind of a value, of equality
with literals, and of the parts of lists and objects. A guard may refer to another by a key; what
keys stand for is kept in an `Arena`, in the order of definition.

A guard is printed in the notation of the runtime's own test library.
-/

namespace Componentry

mutual

inductive Guard where
  /-- The kind of the value. -/
  | kind (tag : String)
  | literal (value : Literal)
  | oneOf (values : List Literal)
  | all (items : List Guard)
  /-- One of the items; without items nothing passes. -/
  | any (items : List Guard)
  | shape (fields : List GuardField)
  | arrayOf (element : Guard)
  | tuple (elements : List Guard)
  | instanceOf (uid : String)
  /-- What the key stands for. -/
  | ref (key : String)
  /-- Everything passes. A reason says why nothing is tested. -/
  | always (reason : String)

/-- The test of one field. -/
inductive GuardField where
  | mk (name : String) (optional : Bool) (guard : Guard)

end

instance : Inhabited Guard := ⟨.always ""⟩

namespace Guard

def form : Guard → String
  | .kind _ => "typeof"
  | .literal _ => "literal"
  | .oneOf _ => "oneOf"
  | .all _ => "all"
  | .any _ => "any"
  | .shape _ => "shape"
  | .arrayOf _ => "arrayOf"
  | .tuple _ => "tuple"
  | .instanceOf _ => "instanceOf"
  | .ref _ => "ref"
  | .always _ => "always"

/-- A guard that an absent value passes too. -/
def optional (g : Guard) : Guard := .any [.kind "undefined", g]

mutual

def text : Guard → String
  | .kind tag => "t." ++ tag
  | .literal v => "t.literal(" ++ v.source ++ ")"
  | .oneOf vs => "t.literal(" ++ String.intercalate ", " (vs.map Literal.source) ++ ")"
  | .all items => "t.intersection(" ++ textAll items ++ ")"
  | .any [] => "t.never"
  | .any (g :: gs) => "t.union(" ++ textAll (g :: gs) ++ ")"
  | .shape [] => "t.interface(\x7b\x7d)"
  | .shape (f :: fs) => "t.interface(\x7b " ++ textFields (f :: fs) ++ " \x7d)"
  | .arrayOf g => "t.array(" ++ g.text ++ ")"
  | .tuple gs => "t.tuple(" ++ textAll gs ++ ")"
  | .instanceOf uid => "t.instanceOf(" ++ Text.quote uid ++ ")"
  | .ref key => "t.ref(" ++ Text.quote key ++ ")"
  | .always _ => "t.any"

/-- Guards with commas between them. -/
def textAll : List Guard → String
  | [] => ""
  | [g] => g.text
  | g :: h :: gs => g.text ++ ", " ++ textAll (h :: gs)

/-- Fields with commas between them. -/
def textFields : List GuardField → String
  | [] => ""
  | [f] => textField f
  | f :: g :: fs => textField f ++ ", " ++ textFields (g :: fs)

/-- A field with its guard. -/
def textField : GuardField → String
  | .mk name optional g =>
    Text.keyText name ++ ": " ++ if optional then "t.optional(" ++ g.text ++ ")" else g.text

end

mutual

/-- The reasons for which parts of a guard test nothing. Keys are not followed. -/
def reasons : Guard → List String
  | .always reason => if reason = "" then [] else [reason]
  | .all items | .any items | .tuple items => reasonsAll items
  | .shape fields => reasonsFields fields
  | .arrayOf g => g.reasons
  | .kind _ | .literal _ | .oneOf _ | .instanceOf _ | .ref _ => []

def reasonsAll : List Guard → List String
  | [] => []
  | g :: gs => g.reasons ++ reasonsAll gs

/-- The reasons of the guards of fields. -/
def reasonsFields : List GuardField → List String
  | [] => []
  | .mk _ _ g :: fs => g.reasons ++ reasonsFields fs

end

end Guard

/-- Named guards in the order of definition. -/
structure Arena where
  entries : List (String × Guard)

namespace Arena

def empty : Arena := ⟨[]⟩

/-- The guard under a key. -/
def lookup (a : Arena) (key : String) : Option Guard := a.entries.lookup key

/-- The keys in the order of definition. -/
def keys (a : Arena) : List String := a.entries.map (·.1)

def size (a : Arena) : Nat := a.entries.length

/-- Put a guard under a key, in the place it has or at the end. -/
def define (a : Arena) (key : String) (g : Guard) : Arena :=
  if a.keys.contains key then
    ⟨a.entries.map fun e => if e.1 == key then (key, g) else e⟩
  else ⟨a.entries ++ [(key, g)]⟩

end Arena

end Componentry
