import Componentry.Types.Basic

/-!
# The fields of a type

Object types have fields, and so have references that stand for such types and intersections of
them. There are two ways to put the members of an intersection together: `fieldsOf` lets a later
field replace an earlier one of the same name, `mergedFields` keeps the earlier one. In both a
name stays where it occurs first.

A type that contains itself through references and intersections alone has no fields. The nodes on
the way are kept in `visiting`; a reference is followed only if it is not among them, so the number
of references that can be followed bounds the recursion.
-/

namespace Componentry

/-- Why a type has no fields. -/
inductive NoFields where
  /-- The type is no object type, or contains itself. -/
  | shapeless
  /-- The bound on recursion was reached. -/
  | exhausted
  deriving DecidableEq, Repr

/-- The fields of a type, given the nodes on the way to it. -/
abbrev FieldsAt := List NodeId → Ty → Except NoFields (List TyField)

mutual

/-- The fields of a type; `follow` finds those of a type that a reference stands for. -/
def fieldsIn (g : Graph) (follow : FieldsAt) (visiting : List NodeId) :
    Ty → Except NoFields (List TyField)
  | .object _ fields => .ok fields
  | .reference i _ _ _ =>
    if visiting.contains i then .error .shapeless
    else match g.target? i with
      | some t => follow (i :: visiting) t
      | none => .error .shapeless
  | .intersection i members =>
    if visiting.contains i then .error .shapeless
    else collectMembers g follow (i :: visiting) [] members
  | .primitive _ _ | .literal _ _ | .union _ _ | .tuple _ _ | .array _ _ | .deferred _ _
  | .unrepresentable _ _ => .error .shapeless

/-- The fields of the members of an intersection put over the fields so far. -/
def collectMembers (g : Graph) (follow : FieldsAt) (visiting : List NodeId)
    (sofar : List TyField) : List Ty → Except NoFields (List TyField)
  | [] => .ok sofar
  | t :: ts => do
    let fields ← fieldsIn g follow visiting t
    collectMembers g follow visiting (fields.foldl putField sofar) ts

end

/-- The fields of a type with at most `n` references followed one after another. -/
def fieldsWithin (g : Graph) : Nat → FieldsAt
  | 0 => fun _ _ => .error .exhausted
  | n + 1 => fieldsIn g (fieldsWithin g n)

def fieldsOf (g : Graph) (t : Ty) : Option (List TyField) :=
  (fieldsWithin g (g.targets.length + 1) [] t).toOption

/-! ## Intersections as one object type -/

/-- Put a field at the end unless its name is taken. -/
def addField (fields : List TyField) (f : TyField) : List TyField :=
  if (findField fields f.name).isSome then fields else fields ++ [f]

/-- Put the fields of a type behind those so far, given the nodes on the way to it. -/
abbrev MergeAt := List NodeId → List TyField → Ty → Except NoFields (List TyField)

mutual

/-- Put the fields of a type behind those so far. -/
def mergeFields (g : Graph) (follow : MergeAt) (visiting : List NodeId)
    (sofar : List TyField) : Ty → Except NoFields (List TyField)
  | .object _ fields => .ok (fields.foldl addField sofar)
  | .reference i _ _ _ =>
    if visiting.contains i then .error .shapeless
    else match g.target? i with
      | some t => follow (i :: visiting) sofar t
      | none => .error .shapeless
  | .intersection i members =>
    if visiting.contains i then .error .shapeless
    else mergeMembers g follow (i :: visiting) sofar members
  | .primitive _ _ | .literal _ _ | .union _ _ | .tuple _ _ | .array _ _ | .deferred _ _
  | .unrepresentable _ _ => .error .shapeless

/-- Put the fields of the members of an intersection behind those so far. -/
def mergeMembers (g : Graph) (follow : MergeAt) (visiting : List NodeId)
    (sofar : List TyField) : List Ty → Except NoFields (List TyField)
  | [] => .ok sofar
  | t :: ts => do
    let fields ← mergeFields g follow visiting sofar t
    mergeMembers g follow visiting fields ts

end

/-- The same with at most `n` references followed one after another. -/
def mergeWithin (g : Graph) : Nat → MergeAt
  | 0 => fun _ _ _ => .error .exhausted
  | n + 1 => mergeFields g (mergeWithin g n)

/-- The fields of an intersection as one object type; of two fields with the same name the earlier
one counts. -/
def mergedFields (g : Graph) (t : Ty) : Option (List TyField) :=
  (mergeWithin g (g.targets.length + 1) [] [] t).toOption

end Componentry
