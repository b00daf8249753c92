import Componentry.Diagnostic
import Componentry.Program.Model
import Componentry.Snippet.Print
import Componentry.Snippet.Visit

/-!
# The lifecycle of components

A component must not run its own code while it is constructed. `ClassDecl.hooked` moves the
initial values of fields and the body of the constructor into the lifecycle hook, which runs later:

* a field with an initial value is declared without it, and the hook starts by assigning it;
* the constructor keeps its super call and stores its parameters in a field;
* the rest of the constructor becomes a block in the hook that takes the parameters out again;
* then follows what the hook did before.

A class without a hook gets one. A field must not read a field that is declared after it.
-/

namespace Componentry

/-- The names of the members that take part. -/
structure LifecycleOptions where
  hook : String := ""
  argsField : String := ""

/-- The options with names for those that are not given. -/
def LifecycleOptions.complete (o : LifecycleOptions) : LifecycleOptions :=
  { hook := if o.hook = "" then "onStart" else o.hook
    argsField := if o.argsField = "" then "__constructorArgs" else o.argsField }

/-- The helper that gives a type to a field without one. -/
def identityHelper : String := "__identity"

/-- A class whose code runs in its hook. -/
structure HookedClass where
  decl : ClassDecl
  /-- The type of a field is written through the helper. -/
  usesIdentity : Bool

/-! ## Fields -/

/-- The type of a value that is not written down: that of calling a function which gives it. -/
def typeFromValue (init : Expr) : TypeExpr :=
  let nowhere := Location.nowhere
  .query init.loc
    (.call nowhere
      (.call nowhere (.name nowhere identityHelper) [.arrow init.loc [] (.value init)]) [])

/-- The first place where a name of `names` is read from the object itself. -/
def firstOwnRead (names : List String) (e : Expr) : Option (Location × String) :=
  e.nodes.findSome? fun
    | .expr (.member l (.self _) name) => if names.contains name then some (l, name) else none
    | _ => none

/-- A field whose initial value reads the field itself or a later one. -/
def useBefore? (f : Field) (init : Expr) (names : List String) : Option (Location × Cause) :=
  (firstOwnRead names init).map fun (loc, used) =>
    (if loc.line = 0 then f.loc else loc, .useBefore used f.name)

/-- The first field in order that is read too early. -/
def firstUseBefore : List Field → Option (Location × Cause)
  | [] => none
  | f :: fs =>
    match f.init.bind fun init => useBefore? f init (f.name :: fs.map (·.name)) with
    | some found => some found
    | none => firstUseBefore fs

/-- A field with an initial value, declared without it. The hook assigns it, so it cannot be
read-only. -/
def Field.declared (f : Field) (init : Expr) : Field :=
  { f with
    init := none
    readOnly := false
    type := some (f.type.getD (typeFromValue init))
    definite := !f.optional || f.definite }

/-- The assignment of an initial value. -/
def Field.assignment (f : Field) (init : Expr) : Stmt :=
  .run f.loc (.assign f.loc (Expr.ownMember f.name) init)

def ClassDecl.perInstance (c : ClassDecl) : List Field := c.fields.filter fun f => !f.static

/-- The assignments of all initial values. -/
def assignments (fields : List Field) : List Stmt :=
  fields.filterMap fun f => f.init.map f.assignment

/-! ## The constructor -/

/-- The first super call of a body, and the other statements in order. -/
def splitSuper : List Stmt → Option Stmt × List Stmt
  | [] => (none, [])
  | s :: ss =>
    if s.isSuperCall then (some s, ss)
    else
      let (call, rest) := splitSuper ss
      (call, s :: rest)

/-- The field that keeps the parameters of a constructor. -/
def argsDeclaration (argsField : String) (c : Constructor) : Field :=
  let types := c.params.map fun p => p.type.getD (.reference Location.nowhere "unknown" [])
  { loc := c.loc, name := argsField, type := some (.tuple c.loc types), optional := false
    static := false, readOnly := false, definite := true, init := none }

/-- The statement that stores the parameters. -/
def storeArgs (argsField : String) (c : Constructor) : Stmt :=
  let names := c.params.map fun p => Expr.name p.loc p.name
  .run c.loc (.assign c.loc (Expr.ownMember argsField) (.array c.loc names))

/-- The constructor that only calls the superclass and stores its parameters. -/
def Constructor.reduced (argsField : String) (c : Constructor) : Constructor :=
  { c with body := (splitSuper c.body).1.toList ++ [storeArgs argsField c] }

/-- The statement that takes the parameters out again; without parameters there is none. -/
def loadArgs (argsField : String) (c : Constructor) : List Stmt :=
  if c.params.isEmpty then []
  else
    [.bind c.loc .fixed (.elements (c.params.map (·.name))) none
      (some (Expr.ownMember argsField))]

/-- The block of a constructor that runs in the hook. -/
def Constructor.moved (argsField : String) (c : Constructor) : Stmt :=
  .block c.loc (loadArgs argsField c ++ (splitSuper c.body).2)

/-! ## The class -/

/-- The hook of a class, and whether the class has none of its own. -/
def hookOf (o : LifecycleOptions) (c : ClassDecl) : Except Diagnostic (Method × Bool) :=
  match c.member? o.hook with
  | none =>
    .ok ({ loc := c.loc, name := o.hook, params := [], result := none, static := false
           body := [] }, true)
  | some (.method m) =>
    if m.static then
      .error { (Cause.collision o.hook).diagnostic m.loc with
               file := c.decl.file, className := c.name }
    else .ok (m, false)
  | some m =>
    .error { (Cause.collision o.hook).diagnostic m.loc with
             file := c.decl.file, className := c.name }

def Member.hooked (o : LifecycleOptions) (hook : Method) : Member → List Member
  | .field f =>
    match f.static, f.init with
    | false, some init => [.field (f.declared init)]
    | _, _ => [.field f]
  | .constructor c =>
    [.field (argsDeclaration o.argsField c), .constructor (c.reduced o.argsField)]
  | .method m => if m.name == o.hook && !m.static then [.method hook] else [.method m]

def lastConstructor (ms : List Member) : Option Constructor :=
  (ms.filterMap fun
    | .constructor c => some c
    | _ => none).getLast?

/-- The class with its code moved into the hook. -/
def ClassDecl.hooked (c : ClassDecl) (options : LifecycleOptions) :
    Except Diagnostic HookedClass := do
  let o := options.complete
  let (hook, isNew) ← hookOf o c
  let fields := c.perInstance
  match firstUseBefore fields with
  | some (loc, cause) =>
    throw { cause.diagnostic loc with file := c.decl.file, className := c.name }
  | none =>
    let moved := (lastConstructor c.members).map (Constructor.moved o.argsField)
    let body := assignments fields ++ moved.toList ++ hook.body
    let full := { hook with body }
    let members := c.members.flatMap (Member.hooked o full)
    return { decl := { c with members := (if isNew then [.method full] else []) ++ members }
             usesIdentity := fields.any fun f => f.init.isSome && f.type.isNone }

end Componentry
