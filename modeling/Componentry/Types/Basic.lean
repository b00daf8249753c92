import Componentry.Program.Model
import Componentry.Text.Quoted

/-!
# Types

The meaning of type annotations. A type is a finite tree whose nodes carry a number; a node that
occurs twice carries the same number in both places, and comparisons of types rely on it. What a
reference to an interface or an alias stands for is not part of the tree: it is kept in a `Graph`,
under the number of the reference, so that types may contain themselves. The arguments of a
reference are part of the tree.

References to classes stand for no other type. They list the ancestors of the class, the nearest
first.
-/

namespace Componentry

/-- The number of a node. -/
abbrev NodeId := Nat

mutual

inductive Ty where
  | primitive (id : NodeId) (name : String)
  | literal (id : NodeId) (value : Literal)
  | union (id : NodeId) (members : List Ty)
  | intersection (id : NodeId) (members : List Ty)
  | tuple (id : NodeId) (elements : List Ty)
  | array (id : NodeId) (element : Ty)
  | object (id : NodeId) (fields : List TyField)
  | reference (id : NodeId) (decl : Declaration) (args : List Ty) (bases : List Declaration)
  | deferred (id : NodeId) (source : String)
  | unrepresentable (id : NodeId) (reason : String)

/-- A named field of an object type. -/
inductive TyField where
  | mk (name : String) (type : Ty) (optional : Bool)

end

instance : Inhabited Ty := ⟨.unrepresentable 0 ""⟩

namespace TyField

def name : TyField → String
  | .mk n _ _ => n

def type : TyField → Ty
  | .mk _ t _ => t

/-- The field may be left out. -/
def optional : TyField → Bool
  | .mk _ _ o => o

end TyField

/-- The first field with a name. -/
def findField (fields : List TyField) (name : String) : Option TyField :=
  fields.find? (·.name == name)

/-- Put a field in the place of the field of the same name, or at the end. -/
def putField : List TyField → TyField → List TyField
  | [], f => [f]
  | g :: gs, f => if g.name == f.name then f :: gs else g :: putField gs f

/-- Names of the built-in types. -/
def primitiveWords : List String :=
  ["string", "number", "boolean", "bigint", "symbol", "undefined", "null", "object", "any",
   "unknown", "never", "void"]

namespace Ty

/-- The number of a type. -/
def id : Ty → NodeId
  | .primitive i _ | .literal i _ | .union i _ | .intersection i _ | .tuple i _ | .array i _
  | .object i _ | .reference i _ _ _ | .deferred i _ | .unrepresentable i _ => i

def form : Ty → String
  | .primitive _ _ => "primitive"
  | .literal _ _ => "literal"
  | .union _ _ => "union"
  | .intersection _ _ => "intersection"
  | .tuple _ _ => "tuple"
  | .array _ _ => "array"
  | .object _ _ => "object"
  | .reference _ _ _ _ => "reference"
  | .deferred _ _ => "deferred"
  | .unrepresentable _ _ => "unrepresentable"

/-- A type that is not known to the program. -/
def isUnknown : Ty → Bool
  | .deferred _ _ | .unrepresentable _ _ => true
  | _ => false

/-- A type written with `|` or `&`. -/
def isCompound : Ty → Bool
  | .union _ _ | .intersection _ _ => true
  | _ => false

mutual

def text : Ty → String
  | .primitive _ name => name
  | .literal _ (.text s) => Text.quote s
  | .literal _ v => v.display
  | .union _ ms => textAll " | " ms
  | .intersection _ ms => textAll " & " ms
  | .tuple _ es => "[" ++ textAll ", " es ++ "]"
  | .array _ e => if e.isCompound then "(" ++ e.text ++ ")[]" else e.text ++ "[]"
  | .object _ [] => "\x7b\x7d"
  | .object _ (f :: fs) => "\x7b " ++ textFields (f :: fs) ++ " \x7d"
  | .reference _ decl [] _ => decl.name
  | .reference _ decl (a :: as) _ => decl.name ++ "<" ++ textAll ", " (a :: as) ++ ">"
  | .deferred _ source => if source = "" then "<deferred>" else "typeof " ++ source
  | .unrepresentable _ reason => "<unrepresentable: " ++ reason ++ ">"

/-- Types with a separator between them. -/
def textAll (sep : String) : List Ty → String
  | [] => ""
  | [t] => t.text
  | t :: u :: ts => t.text ++ sep ++ textAll sep (u :: ts)

/-- Fields with semicolons between them. -/
def textFields : List TyField → String
  | [] => ""
  | [f] => textField f
  | f :: g :: fs => textField f ++ "; " ++ textFields (g :: fs)

/-- A field with its type. -/
def textField : TyField → String
  | .mk name t optional => name ++ (if optional then "?: " else ": ") ++ t.text

end

mutual

/-- The number of nodes of a type. -/
def size : Ty → Nat
  | .primitive _ _ | .literal _ _ | .deferred _ _ | .unrepresentable _ _ => 1
  | .union _ ms | .intersection _ ms | .tuple _ ms => sizeAll ms + 1
  | .array _ e => e.size + 1
  | .object _ fs => sizeFields fs + 1
  | .reference _ _ as _ => sizeAll as + 1

/-- The number of nodes of several types. -/
def sizeAll : List Ty → Nat
  | [] => 0
  | t :: ts => t.size + sizeAll ts

/-- The number of nodes of the types of fields. -/
def sizeFields : List TyField → Nat
  | [] => 0
  | .mk _ t _ :: fs => t.size + sizeFields fs

end

mutual

/-- Two types are the same: built alike from the same parts, where the fields of an object type may
stand in any order. Types that are not known are the same as nothing. -/
def same : Ty → Ty → Bool
  | .primitive _ n, .primitive _ m => n == m
  | .literal _ v, .literal _ w => v.same w
  | .union _ ms, .union _ ns => sameAll ms ns
  | .intersection _ ms, .intersection _ ns => sameAll ms ns
  | .tuple _ ms, .tuple _ ns => sameAll ms ns
  | .array _ e, .array _ f => e.same f
  | .object _ fs, .object _ gs => fs.length == gs.length && sameFields fs gs
  | .reference _ d as _, .reference _ e bs _ => d.id == e.id && sameAll as bs
  | _, _ => false

/-- Two lists of types are the same, place by place. -/
def sameAll : List Ty → List Ty → Bool
  | [], [] => true
  | t :: ts, u :: us => t.same u && sameAll ts us
  | _, _ => false

/-- Every field of the first list has its like in the second. -/
def sameFields : List TyField → List TyField → Bool
  | [], _ => true
  | .mk name t optional :: fs, gs =>
    (match findField gs name with
      | some g => g.optional == optional && t.same g.type
      | none => false) && sameFields fs gs

end

end Ty

/-! ## Graphs -/

/-- The nodes made so far, and what references stand for. -/
structure Graph where
  /-- A number that no node has yet. -/
  next : NodeId
  targets : List (NodeId × Ty)

namespace Graph

def empty : Graph := ⟨0, []⟩

/-- What the reference with a number stands for. -/
def target? (g : Graph) (id : NodeId) : Option Ty := (g.targets.find? (·.1 == id)).map (·.2)

/-- Let the reference with a number stand for a type. -/
def setTarget (g : Graph) (id : NodeId) (t : Ty) : Graph :=
  { g with targets := (id, t) :: g.targets }

/-- The number of nodes that references stand for. -/
def size (g : Graph) : Nat := Ty.sizeAll (g.targets.map (·.2))

end Graph

end Componentry
