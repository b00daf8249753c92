import Componentry.Metadata.Session
import Componentry.Types.Assignable

/-!
# Guards that a class inherits

A component need not test again what the class it extends tests already: an attribute whose type is
the same in both, or an instance that may be anything the superclass allows.
-/

namespace Componentry

/-- The property that holds the attributes of a component. -/
def attributesProperty : String := "attributes"

/-- The property that holds the instance of a component. -/
def instanceProperty : String := "instance"

/-- The names of fields that have their like among other fields. -/
def commonFields (fields others : List TyField) : List String :=
  (fields.filter fun f => others.any fun o =>
    o.name == f.name && o.optional == f.optional && f.type.same o.type).map (·.name)

/-- The types of a property in a class and in the class it extends, where the type parameters of the
superclass are left open; nothing unless both have the property. -/
def inheritedProperty (p : Program) (c : ClassDecl) (name : String) :
    Resolve (Option (Ty × Ty)) := do
  match p.superclass? c with
  | none => return none
  | some parent =>
    match ← p.typeOfProperty c name with
    | none => return none
    | some own =>
      match ← p.typeOfOpenProperty parent name with
      | none => return none
      | some base => return some (own, base)

/-- The attributes of a class that need no guard: those in `explicit`, and those that the superclass
has too. -/
def omittedAttributes (p : Program) (c : ClassDecl) (explicit : List String) :
    Resolve (List String) := do
  match ← inheritedProperty p c attributesProperty with
  | none => return explicit
  | some (own, base) =>
    let g := (← get).graph
    match fieldsOf g own, fieldsOf g base with
    | some fields, some others => return explicit ++ commonFields fields others
    | _, _ => return explicit

/-- The instance of a class needs no guard: everything that the superclass declares fits it. -/
def omitsInstance (p : Program) (c : ClassDecl) : Resolve Bool := do
  match ← inheritedProperty p c instanceProperty with
  | none => return false
  | some (own, base) => return assignable (← get).graph own base

end Componentry
