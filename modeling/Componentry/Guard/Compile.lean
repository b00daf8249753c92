import Componentry.Guard.Basic
import Componentry.Identity
import Componentry.Types.Fields

/-!
# Guards of types

A type is compiled into the guard that tests its values. References to classes test for instances.
References to interfaces and aliases are compiled once, under a key made from the identifier of the
declaration and the text of the arguments, and every use refers to the key; a reference met while
its own guard is being compiled does the same, so types that contain themselves are no problem.

A part of a type that cannot be tested becomes a guard that accepts everything; the reason is noted
as a warning. Compiling fails only if a declaration cannot be given an identifier. What has been
defined and noted before the failure stays.

Each reference that is followed is under way from then on, and only references with a body are
followed, so the number of bodies bounds the recursion.
-/

namespace Componentry

/-- A part of a type that cannot be tested: the text of the type, and the reason. -/
structure GuardWarning where
  type : String
  reason : String
  deriving DecidableEq, Repr

/-- The state of compiling: identifiers, named guards, and warnings that nobody has taken yet. -/
structure Compiler where
  ids : Registry
  arena : Arena
  warnings : List GuardWarning

def Compiler.empty (style : IdStyle) : Compiler := ⟨Registry.empty style, Arena.empty, []⟩

/-- A step of compiling. A failure keeps the state; there is no result at all if the bound on
recursion is reached. -/
abbrev Compile := ExceptT Diagnostic (StateT Compiler Option)

namespace Compile

/-- The bound is reached. -/
def exhausted {α : Type} : Compile α := fun _ => none

def uid (d : Declaration) : Compile String := do
  let c ← get
  match c.ids.uid d with
  | .ok (uid, ids) =>
    set { c with ids }
    return uid
  | .error e => throw e

/-- Note that a type is not tested. -/
def warn (type reason : String) : Compile Guard := do
  modify fun c => { c with warnings := c.warnings ++ [⟨type, reason⟩] }
  return .always reason

/-- Note that a type which cannot be expressed is not tested. -/
def warnUnrepresentable (reason : String) : Compile Guard :=
  warn (Ty.unrepresentable 0 reason).text reason

/-- The values of a union of literals. -/
def literals? : List Ty → Option (List Literal)
  | [] => some []
  | .literal _ v :: ts => (literals? ts).map (v :: ·)
  | _ :: _ => none

def applicationKey (uid : String) (args : List Ty) : String :=
  if args.isEmpty then uid else uid ++ "<" ++ Ty.textAll ", " args ++ ">"

/-- Compiling a type while the guards under some keys are under way. -/
abbrev CompileAt := List String → Ty → Compile Guard

/-- The guard of a reference; `follow` compiles what it stands for. -/
def reference (g : Graph) (follow : CompileAt) (underWay : List String) (id : NodeId)
    (d : Declaration) (args : List Ty) : Compile Guard := do
  let uid ← uid d
  if d.kind = .classDecl then return .instanceOf uid
  let key := applicationKey uid args
  if ((← get).arena.lookup key).isSome || underWay.contains key then return .ref key
  match g.target? id with
  | none => warnUnrepresentable (d.name ++ " has no body")
  | some t =>
    let body ← follow (key :: underWay) t
    modify fun c => { c with arena := c.arena.define key body }
    return .ref key

mutual

/-- The guard of a type; `follow` compiles what references stand for. -/
def guard (g : Graph) (follow : CompileAt) (underWay : List String) : Ty → Compile Guard
  | .primitive _ name =>
    if name = "any" || name = "unknown" then return .always ""
    else if name = "never" then return .any []
    else return .kind name
  | .literal _ v => return .literal v
  | .union _ members =>
    match literals? members with
    | some vs => return .oneOf vs
    | none => do
      let items ← guards g follow underWay members
      return .any items
  | .intersection _ members => do
    let items ← guards g follow underWay members
    return .all items
  | .tuple _ elements => do
    let items ← guards g follow underWay elements
    return .tuple items
  | .array _ e => do
    let element ← guard g follow underWay e
    return .arrayOf element
  | .object _ fields => do
    let checks ← fieldGuards g follow underWay fields
    return .shape checks
  | .reference id d args _ => reference g follow underWay id d args
  | .deferred i source => warn (Ty.deferred i source).text (Ty.deferred i source).text
  | .unrepresentable i reason => warn (Ty.unrepresentable i reason).text reason

def guards (g : Graph) (follow : CompileAt) (underWay : List String) :
    List Ty → Compile (List Guard)
  | [] => return []
  | t :: ts => do
    let first ← guard g follow underWay t
    let rest ← guards g follow underWay ts
    return first :: rest

/-- The guards of fields. -/
def fieldGuards (g : Graph) (follow : CompileAt) (underWay : List String) :
    List TyField → Compile (List GuardField)
  | [] => return []
  | .mk name t optional :: fs => do
    let first ← guard g follow underWay t
    let rest ← fieldGuards g follow underWay fs
    return .mk name optional first :: rest

end

/-- The guard of a type with at most `n` references followed one after another. -/
def guardWithin (g : Graph) : Nat → CompileAt
  | 0 => fun _ _ => exhausted
  | n + 1 => fun underWay t => guard g (guardWithin g n) underWay t

end Compile

def typeGuard (g : Graph) (t : Ty) : Compile Guard :=
  Compile.guardWithin g (g.targets.length + 1) [] t

/-- A guard for one field of a type. -/
structure FieldGuard where
  name : String
  optional : Bool
  guard : Guard

/-- The guard of a field on its own: absence passes if the field is optional. -/
def compileField (g : Graph) (f : TyField) : Compile FieldGuard := do
  let check ← typeGuard g f.type
  return ⟨f.name, f.optional, if f.optional then check.optional else check⟩

/-- The guards of fields on their own. -/
def compileFields (g : Graph) : List TyField → Compile (List FieldGuard)
  | [] => return []
  | f :: fs => do
    let first ← compileField g f
    let rest ← compileFields g fs
    return first :: rest

/-- The guards of the fields of a type. A type without fields has none; if it is not known, that is
noted. -/
def memberGuards (g : Graph) (t : Ty) : Compile (List FieldGuard) := do
  match fieldsOf g t with
  | some fields => compileFields g fields
  | none =>
    match t with
    | .deferred i source =>
      let _ ← Compile.warn (Ty.deferred i source).text (Ty.deferred i source).text
    | .unrepresentable i reason =>
      let _ ← Compile.warn (Ty.unrepresentable i reason).text reason
    | _ => pure ()
    return []

end Componentry
