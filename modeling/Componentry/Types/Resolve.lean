import Componentry.Program.Scope
import Componentry.Snippet.Print
import Componentry.Types.Fields

/-!
# Resolving type annotations

A type annotation is turned into a type. A name stands for the type parameter of that name, else
for a built-in type, else for the declaration that is visible from the file. A reference to an
interface or an alias is made once for each list of arguments, told apart by how they read, and
shared from then on; its body is resolved when it is first needed. So a declaration may refer to
itself: inside its own body the reference exists and stands for nothing yet.

Instantiation inside instantiation is cut off at `maxDepth`. Besides that, resolving needs a bound
of its own, because the default of a type parameter may refer to the declaration it belongs to; a
resolution that reaches the bound has no result.
-/

namespace Componentry

/-- The types that names of type parameters stand for; later entries come first. -/
abbrev Env := List (String × Ty)

/-- What has been resolved so far: the nodes, and the shared references by the number of their
declaration and the text of their arguments. -/
structure Resolution where
  graph : Graph
  shared : List ((Nat × String) × Ty)

namespace Resolution

def empty : Resolution := ⟨Graph.empty, []⟩

/-- The shared reference under a key. -/
def find? (r : Resolution) (key : Nat × String) : Option Ty :=
  (r.shared.find? (·.1 == key)).map (·.2)

end Resolution

/-- A step of resolving; it has no result if the bound is reached. -/
abbrev Resolve := StateT Resolution Option

namespace Resolve

/-- A number for a new node. -/
def fresh : Resolve NodeId := do
  let r ← get
  set { r with graph := { r.graph with next := r.graph.next + 1 } }
  return r.graph.next

/-- A type that cannot be expressed, with the reason. -/
def unrepresentable (reason : String) : Resolve Ty := do
  return .unrepresentable (← fresh) reason

/-- A union; of one member it is that member. -/
def union (members : List Ty) : Resolve Ty := do
  match members with
  | [t] => return t
  | ts => return .union (← fresh) ts

/-- An intersection; of one member it is that member. -/
def intersection (members : List Ty) : Resolve Ty := do
  match members with
  | [t] => return t
  | ts => return .intersection (← fresh) ts

def primitive (name : String) : Resolve Ty := do
  return .primitive (← fresh) (if name = "void" then "undefined" else name)

/-- The members that a type adds to a union: those of a union are taken over. -/
def unionMembers : Ty → List Ty
  | .union _ members => members
  | t => [t]

/-- A declared type applied to arguments. -/
abbrev Instantiate := Declaration → List Ty → Resolve Ty

/-- The type of a name with arguments. -/
def reference (p : Program) (inst : Instantiate) (scope : Option SourceFile) (name : String)
    (args : List Ty) : Resolve Ty := do
  match p.resolve? scope name, args with
  | some d, _ => inst d args
  | none, [t] =>
    if name = "Array" || name = "ReadonlyArray" then return .array (← fresh) t
    else unrepresentable ("unresolved type name " ++ name)
  | none, _ => unrepresentable ("unresolved type name " ++ name)

/-- The type of a name without arguments, if it is that of a type parameter or a built-in one. -/
def localName? (env : Env) (name : String) : Resolve (Option Ty) := do
  match env.lookup name with
  | some t => return some t
  | none => if primitiveWords.contains name then return some (← primitive name) else return none

mutual

/-- The type of an annotation in a file, with `inst` for declared types. -/
def type (p : Program) (inst : Instantiate) (scope : Option SourceFile) (env : Env) :
    TypeExpr → Resolve Ty
  | .reference _ name [] => do
    match ← localName? env name with
    | some t => return t
    | none => reference p inst scope name []
  | .reference _ name (a :: as) => do
    let args ← types p inst scope env (a :: as)
    reference p inst scope name args
  | .literal _ v => do return .literal (← fresh) v
  | .union _ ms => do
    let members ← types p inst scope env ms
    union (members.flatMap unionMembers)
  | .intersection _ ms => do
    let members ← types p inst scope env ms
    intersection members
  | .array _ e => do
    let element ← type p inst scope env e
    return .array (← fresh) element
  | .tuple _ es => do
    let elements ← types p inst scope env es
    return .tuple (← fresh) elements
  | .object _ ps => do
    let fields ← properties p inst scope env ps
    return .object (← fresh) fields
  | .query _ e => do return .deferred (← fresh) e.print
  | .function l ps r => unrepresentable ("function type " ++ (TypeExpr.function l ps r).print)
  | .conditional l a b c d =>
    unrepresentable ("conditional type " ++ (TypeExpr.conditional l a b c d).print)

def types (p : Program) (inst : Instantiate) (scope : Option SourceFile) (env : Env) :
    List TypeExpr → Resolve (List Ty)
  | [] => return []
  | t :: ts => do
    let first ← type p inst scope env t
    let rest ← types p inst scope env ts
    return first :: rest

/-- The fields of an object annotation. -/
def properties (p : Program) (inst : Instantiate) (scope : Option SourceFile) (env : Env) :
    List PropertyType → Resolve (List TyField)
  | [] => return []
  | .mk name optional t :: ps => do
    let first ← type p inst scope env t
    let rest ← properties p inst scope env ps
    return .mk name first optional :: rest

end

/-- The type of an annotation that may be missing. -/
def type? (p : Program) (inst : Instantiate) (scope : Option SourceFile) (env : Env) :
    Option TypeExpr → Resolve Ty
  | some t => type p inst scope env t
  | none => unrepresentable "missing type annotation"

/-- A type parameter that nothing is known about. -/
def unbound (name : String) : Resolve Ty :=
  unrepresentable ("unbound type parameter " ++ name)

/-- Bind type parameters: to the arguments as far as they go, then to the defaults, which may refer
to earlier parameters, else to nothing. -/
def bindParams (p : Program) (inst : Instantiate) (scope : Option SourceFile) :
    Env → List TypeParam → List Ty → Resolve Env
  | env, [], _ => return env
  | env, param :: params, arg :: args =>
    bindParams p inst scope ((param.name, arg) :: env) params args
  | env, param :: params, [] => do
    let t ← match param.default with
      | some d => type p inst scope env d
      | none => unbound param.name
    bindParams p inst scope ((param.name, t) :: env) params []

/-- What the parameters are bound to, in order. -/
def boundArgs (env : Env) (params : List TypeParam) : List Ty :=
  params.filterMap fun param => env.lookup param.name

/-- Put the fields of the types that an interface extends over one another. A type without fields
adds none. -/
def parentFields (p : Program) (inst : Instantiate) (scope : Option SourceFile) (env : Env) :
    List TyField → List TypeExpr → Resolve (List TyField)
  | fields, [] => return fields
  | fields, t :: ts => do
    let parent ← type p inst scope env t
    let more := (fieldsOf (← get).graph parent).getD []
    parentFields p inst scope env (more.foldl putField fields) ts

/-- Put the fields of an interface over those it inherits. -/
def ownFields (p : Program) (inst : Instantiate) (scope : Option SourceFile) (env : Env) :
    List TyField → List Field → Resolve (List TyField)
  | fields, [] => return fields
  | fields, f :: fs => do
    let t ← type? p inst scope env f.type
    ownFields p inst scope env (putField fields (.mk f.name t f.optional)) fs

/-- The object type of an interface. Methods are not part of it. -/
def interfaceBody (p : Program) (inst : Instantiate) (env : Env) (i : InterfaceDecl) :
    Resolve Ty := do
  let scope := p.fileOf? i.decl
  let inherited ← parentFields p inst scope env [] i.parents
  let fields ← ownFields p inst scope env inherited i.fields
  return .object (← fresh) fields

/-- The levels of instantiation inside instantiation. -/
def maxDepth : Nat := 64

/-- The key of a shared reference. -/
def sharedKey (d : Declaration) (args : List Ty) : Nat × String := (d.id, Ty.textAll "," args)

/-- What becomes of an instantiation that would be nested too deep. -/
def tooDeep (d : Declaration) : Resolve Ty :=
  unrepresentable ("instantiation of " ++ d.name ++ " is too deep")

/-- The shared reference to a declaration with parameters, made by `body` if it is new, or by `deep`
if it would be nested too deep. -/
def shared (p : Program) (inst : Instantiate) (deep : Declaration → Resolve Ty) (depth : Nat)
    (d : Declaration) (params : List TypeParam) (args : List Ty) (body : Env → Resolve Ty) :
    Resolve Ty := do
  let env ← bindParams p inst (p.fileOf? d) [] params args
  let bound := boundArgs env params
  let key := sharedKey d bound
  match (← get).find? key with
  | some t => return t
  | none =>
    if depth ≥ maxDepth then deep d
    else
      let id ← fresh
      let ref := Ty.reference id d bound []
      modify fun r => { r with shared := (key, ref) :: r.shared }
      let target ← body env
      modify fun r => { r with graph := r.graph.setTarget id target }
      return ref

/-- A declared type applied to arguments, at a depth of instantiation and with a bound; `deep`
stands in for what would be nested too deep. -/
def instantiate (p : Program) (deep : Declaration → Resolve Ty) : Nat → Nat → Instantiate
  | 0, _ => fun _ _ => failure
  | n + 1, depth => fun d args => do
    let here : Instantiate := fun d args r => instantiate p deep n depth d args r
    let inside : Instantiate := fun d args r => instantiate p deep n (depth + 1) d args r
    match d.kind with
    | .classDecl =>
      match p.class? d with
      | some c =>
        let env ← bindParams p here (p.fileOf? d) [] c.typeParams args
        return .reference (← fresh) d (boundArgs env c.typeParams) (p.ancestors c)
      | none => failure
    | .interfaceDecl =>
      match p.interface? d with
      | some i =>
        shared p here deep depth d i.typeParams args fun env => interfaceBody p inside env i
      | none => failure
    | .aliasDecl =>
      match p.alias? d with
      | some a =>
        shared p here deep depth d a.typeParams args fun env =>
          type p inside (p.fileOf? d) env a.type
      | none => failure
    | .decorator => unrepresentable (d.kind.word ++ " " ++ d.name ++ " is not a type")

end Resolve

/-- The number of type parameters of a program. -/
def Program.paramCount (p : Program) : Nat :=
  (p.files.flatMap fun f =>
    f.classes.flatMap (·.typeParams) ++ f.interfaces.flatMap (·.typeParams) ++
      f.aliases.flatMap (·.typeParams)).length

/-- A bound on resolving that is reached only if the default of a type parameter leads back to
itself: between two levels of instantiation each default is entered at most once. -/
def Program.resolveBound (p : Program) : Nat :=
  (Resolve.maxDepth + 2) * (p.paramCount + 2)

/-- A declared type applied to arguments. -/
def Program.instantiate (p : Program) : Resolve.Instantiate :=
  Resolve.instantiate p Resolve.tooDeep p.resolveBound 0

/-- The type of an annotation in a file. -/
def Program.typeOf (p : Program) (scope : Option SourceFile) (env : Env) (t : TypeExpr) :
    Resolve Ty :=
  Resolve.type p p.instantiate scope env t

/-- Bind the type parameters of a declaration. -/
def Program.bindParams (p : Program) (d : Declaration) (params : List TypeParam)
    (args : List Ty) : Resolve Env :=
  Resolve.bindParams p p.instantiate (p.fileOf? d) [] params args

end Componentry
