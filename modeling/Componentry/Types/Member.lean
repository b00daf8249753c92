import Componentry.Types.Resolve

/-!
# Types of class members

The type of a property of a class is that of the nearest field of its name along the chain of
superclasses. Type arguments are carried along the chain: those that a class passes to the class it
extends become what the parameters of that class stand for.
-/

namespace Componentry.Program

/-- The type of an instance of a class, its type parameters at their defaults. -/
def typeOfInstance (p : Program) (c : ClassDecl) : Resolve Ty := p.instantiate c.decl []

/-- The type of a field. Without an annotation it is left to inference from the initial value. -/
def typeOfField (p : Program) (scope : Option SourceFile) (env : Env) (f : Field) : Resolve Ty := do
  match f.type, f.init with
  | some t, _ => p.typeOf scope env t
  | none, some e => return .deferred (← Resolve.fresh) e.print
  | none, none => return .deferred (← Resolve.fresh) ""

/-- The annotations of several types in a file. -/
def typesOf (p : Program) (scope : Option SourceFile) (env : Env) (ts : List TypeExpr) :
    Resolve (List Ty) :=
  Resolve.types p p.instantiate scope env ts

/-- The arguments that a class passes to the class it extends. -/
def parentArgs (c : ClassDecl) : List TypeExpr :=
  match c.parent with
  | some (.reference _ _ args) => args
  | _ => []

/-- The type of a property along the chain of superclasses, for at most `n` classes and up to a
class in `seen`. -/
def propertyFrom (p : Program) (name : String) :
    Nat → List Nat → Env → ClassDecl → Resolve (Option Ty)
  | 0, _, _, _ => return none
  | n + 1, seen, env, c => do
    if seen.contains c.decl.id then return none
    let scope := p.fileOf? c.decl
    match c.fields.find? fun f => !f.static && f.name == name with
    | some f => return some (← p.typeOfField scope env f)
    | none =>
      match p.superclass? c with
      | none => return none
      | some parent =>
        let args ← p.typesOf scope env (parentArgs c)
        let env' ← p.bindParams parent.decl parent.typeParams args
        p.propertyFrom name n (c.decl.id :: seen) env' parent

/-- The type of a property of a class, its type parameters at their defaults. -/
def typeOfProperty (p : Program) (c : ClassDecl) (name : String) : Resolve (Option Ty) := do
  let env ← p.bindParams c.decl c.typeParams []
  p.propertyFrom name (p.classes.length + 1) [] env c

/-- Type parameters that nothing is known about. -/
def unboundEnv : List TypeParam → Resolve Env
  | [] => return []
  | param :: params => do
    let t ← Resolve.unbound param.name
    let rest ← unboundEnv params
    return rest ++ [(param.name, t)]

/-- The type of a property of a class whose type parameters are left open. -/
def typeOfOpenProperty (p : Program) (c : ClassDecl) (name : String) :
    Resolve (Option Ty) := do
  let env ← unboundEnv c.typeParams
  p.propertyFrom name (p.classes.length + 1) [] env c

end Componentry.Program
