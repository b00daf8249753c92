import Componentry.Metadata.Omission
import Componentry.Metadata.Value

/-!
# Configurations

The arguments of a decorator become its configuration. The runtime's own decorators take an object
literal; a component's configuration is completed by the guards for its attributes and its instance,
unless the author gives them or the superclass has them. Other decorators keep their arguments as a
list.
-/

namespace Componentry

/-- A decorator on a class, with its declaration. -/
structure ResolvedDecoration where
  name : String
  decl : Declaration
  args : List Expr
  recognized : Bool
  component : Bool
  withNodes : Bool
  loc : Location

/-- What is known of a class from its file and its decorators. -/
structure ClassDecorations where
  external : Bool
  decorations : List ResolvedDecoration

/-- The declaration of a decorator on a class. -/
def resolveDecoration (p : Program) (c : ClassDecl) (d : Decoration) :
    Except Diagnostic ResolvedDecoration :=
  let missing := c.diagnostic d.loc (.notFound d.name)
  match p.resolve? (p.fileOf? c.decl) d.name with
  | none => .error missing
  | some decl =>
    match p.decorator? decl with
    | none => .error missing
    | some info =>
      .ok { name := d.name, decl, args := d.args, recognized := info.recognized
            component := info.component, withNodes := info.withNodes, loc := d.loc }

/-- What is known of a class. A decorator that is not declared is an error. -/
def decorationsOf (p : Program) (c : ClassDecl) : Except Diagnostic ClassDecorations := do
  let decorations ← c.decorations.mapM (resolveDecoration p c)
  return { external := (p.fileOf? c.decl).any (·.external), decorations }

/-! ## Guards for components -/

/-- Turn the warnings of compiling into warnings about a part of a class. -/
def collectWarnings (c : ClassDecl) (subject : String) : Work Unit := do
  let found ← Work.takeGuardWarnings
  let ds := found.map fun w => c.diagnostic c.loc (.unrepresentable subject w.reason)
  modify fun s => { s with warnings := s.warnings ++ ds }

/-- A failure of compiling inside a class: the file is kept if there is one. -/
def ClassDecl.located (c : ClassDecl) (d : Diagnostic) : Diagnostic :=
  { d with file := if d.file = "" then c.decl.file else d.file, className := c.name }

/-- Add the guards of attributes that are not omitted. -/
def addGuards (omitted : List String) (attributes : Entries) (guards : List FieldGuard) :
    Entries :=
  (guards.filter fun g => !omitted.contains g.name).foldl
    (fun es g => es.put g.name (.guard g.guard)) attributes

/-- The configuration with the guards of the attributes. An expression for the attributes that is
not an object literal is the author's own set of guards and stays. -/
def withAttributeGuards (p : Program) (c : ClassDecl) (config : Entries) : Work Entries := do
  let existing := config.get? "attributes"
  match existing.getD (.object []) with
  | .object attributes =>
    match ← Work.resolve (p.typeOfProperty c attributesProperty) with
    | none => return config.put "attributes" (.object attributes)
    | some shape =>
      let guards ← Work.detail c.located (Work.compile fun g => memberGuards g shape)
      collectWarnings c ("attributes of " ++ c.name)
      let omitted ← Work.resolve (omittedAttributes p c (Entries.keys attributes))
      return config.put "attributes" (.object (addGuards omitted attributes guards))
  | _ => return config

/-- The configuration with the guard of the instance. -/
def withInstanceGuard (p : Program) (c : ClassDecl) (config : Entries) : Work Entries := do
  if config.has "instanceGuard" then return config
  if ← Work.resolve (omitsInstance p c) then return config
  match ← Work.resolve (p.typeOfProperty c instanceProperty) with
  | none => return config
  | some t =>
    let check ← Work.detail c.located (Work.compile fun g => typeGuard g t)
    collectWarnings c ("instance of " ++ c.name)
    return config.put "instanceGuard" (.guard check)

/-- The entries that the author gives a decorator of the runtime. -/
def authorEntries : List Expr → Entries
  | .object _ ps :: _ => Entries.ofProperties [] ps
  | _ => []

/-- The configuration of a decorator on a class. -/
def decorationConfig (p : Program) (c : ClassDecl) (d : ResolvedDecoration) (component : Bool) :
    Work Entries := do
  if !d.recognized then
    return [("kind", .text "Arbitrary"), ("arguments", .list (d.args.map .source))]
  let config := authorEntries d.args
  let config ← if component then withAttributeGuards p c config else pure config
  let config ← if component then withInstanceGuard p c config else pure config
  return config.putFirst "type" (.text d.name)

end Componentry
