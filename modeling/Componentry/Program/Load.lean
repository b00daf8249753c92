import Componentry.Diagnostic
import Componentry.Program.Description
import Componentry.Program.Model
import Componentry.Program.Prelude
import Componentry.Snippet.Grammar
import Componentry.Yaml.Reader

/-!
# Loading programs

`loadProgram` reads a program description and its source texts. Loading stops at the first problem,
which becomes a diagnostic about the description. Within a file decorators come first, then
interfaces, aliases and classes. Declarations are numbered in the order in which they are loaded,
those of the runtime first.
-/

namespace Componentry

open Description

/-- Why a description is no program. -/
inductive LoadProblem where
  | document (failure : Yaml.Failure)
  | badName (kind : DeclKind) (name : String)
  | initializedField (name : String)
  | aliasWithoutType (name : String)
  | fieldWithBody
  | memberShape (className : String)
  | badText (text : String) (why : Snippet.Complaint)
  deriving DecidableEq, Repr

def LoadProblem.message : LoadProblem → String
  | .document failure => failure.message
  | .badName kind name => "invalid " ++ kind.word ++ " name " ++ Text.quote name
  | .initializedField name => "interface field '" ++ name ++ "' cannot have an initializer"
  | .aliasWithoutType name => "type alias '" ++ name ++ "' has no type"
  | .fieldWithBody => "a field member cannot have a body"
  | .memberShape className =>
    "class '" ++ className ++ "': each member needs exactly one of 'field' or 'method'"
  | .badText text why => "invalid snippet " ++ Text.quote text ++ ": " ++ why.message

/-- Loading numbers declarations and stops at a problem with its place. -/
abbrev Load := StateT Nat (Except (Location × LoadProblem))

namespace Load

def fail {α : Type} (loc : Location) (p : LoadProblem) : Load α := throw (loc, p)

/-- Read an excerpt by a rule of the grammar; the first complaint counts. -/
def text {α : Type} (rule : Snippet.Grammar → Snippet.Parse α) (e : Excerpt) : Load α :=
  match Snippet.read rule e.loc e.text with
  | .ok a => return a
  | .error (first :: _) => fail first.loc (.badText e.text first.why)
  | .error [] => fail e.loc (.badText e.text .trailing)

/-- A new declaration. -/
def declaration (file : String) (kind : DeclKind) (name : Excerpt) : Load Declaration := do
  if Text.isIdentifier name.text then
    let id ← get
    set (id + 1)
    return { id, name := name.text, kind, file, loc := name.loc }
  else fail name.loc (.badName kind name.text)

def decorator (file : String) (d : DecoratorDesc) : Load DecoratorDecl := do
  let decl ← declaration file .decorator d.name
  return { decl, recognized := d.recognized, component := d.component, withNodes := d.withNodes }

/-- A field of an interface. -/
def interfaceField (e : Excerpt) : Load Field := do
  let f ← text Snippet.field e
  if f.init.isSome then fail e.loc (.initializedField f.name) else return f

def interface (file : String) (d : InterfaceDesc) : Load InterfaceDecl := do
  let decl ← declaration file .interfaceDecl d.name
  let typeParams ← d.typeParams.mapM (text Snippet.typeParam)
  let parents ← d.parents.mapM (text Snippet.type)
  let fields ← d.fields.mapM interfaceField
  let methods ← d.methods.mapM (text Snippet.method)
  return { decl, typeParams, parents, fields, methods }

def typeAlias (file : String) (d : AliasDesc) : Load AliasDecl := do
  let decl ← declaration file .aliasDecl d.name
  let typeParams ← d.typeParams.mapM (text Snippet.typeParam)
  if d.type.text = "" then fail d.name.loc (.aliasWithoutType decl.name)
  let type ← text Snippet.type d.type
  return { decl, typeParams, type }

/-- A decorator that a class carries. -/
def decoration (d : DecorationDesc) : Load Decoration := do
  let args ← d.args.mapM (text Snippet.expression)
  return { name := d.name.text, args, loc := d.name.loc }

/-- A constructor of the class with a name. -/
def constructor (name : Excerpt) (d : ConstructorDesc) : Load Constructor := do
  let params ← d.params.mapM (text Snippet.param)
  let body ← d.body.mapM (text Snippet.statement)
  return { loc := name.loc, params, body }

/-- A member of the class with a name. -/
def member (name : Excerpt) (d : MemberDesc) : Load Member := do
  match d.field, d.method with
  | some f, none =>
    if d.body.isEmpty then return .field (← text Snippet.field f)
    else fail f.loc .fieldWithBody
  | none, some m =>
    let head ← text Snippet.method m
    let body ← d.body.mapM (text Snippet.statement)
    return .method { head with body }
  | _, _ => fail name.loc (.memberShape name.text)

def class_ (file : String) (d : ClassDesc) : Load ClassDecl := do
  let decl ← declaration file .classDecl d.name
  let typeParams ← d.typeParams.mapM (text Snippet.typeParam)
  let parent ← d.parent.mapM (text Snippet.type)
  let implemented ← d.implemented.mapM (text Snippet.type)
  let decorations ← d.decorations.mapM decoration
  let ctor ← d.constructor.mapM (constructor d.name)
  let members ← d.members.mapM (member d.name)
  return { decl, typeParams, parent, implemented, decorations
           members := (ctor.map Member.constructor).toList ++ members }

def file (d : FileDesc) : Load SourceFile := do
  let decorators ← d.decorators.mapM (decorator d.path)
  let interfaces ← d.interfaces.mapM (interface d.path)
  let aliases ← d.aliases.mapM (typeAlias d.path)
  let classes ← d.classes.mapM (class_ d.path)
  return { path := d.path, external := d.external, ambient := false
           classes, interfaces, aliases, decorators }

/-- The files that a text describes. -/
def files (reader : Yaml.Reader) (s : String) : Load (List SourceFile) := do
  match Description.read reader s with
  | .error e => fail Location.nowhere (.document e)
  | .ok d => d.files.mapM file

end Load

/-- The module that declares the runtime unless another is configured. -/
def defaultModule : String := "@flamework/components"

/-- The declarations of the runtime, as a file of the module `path`. -/
def SourceFile.asPrelude (path : String) (f : SourceFile) : SourceFile :=
  let move (d : Declaration) : Declaration := { d with file := path }
  { f with
    path, external := true, ambient := true
    classes := f.classes.map fun c => { c with decl := move c.decl }
    interfaces := f.interfaces.map fun i => { i with decl := move i.decl }
    aliases := f.aliases.map fun a => { a with decl := move a.decl }
    decorators := f.decorators.map fun d => { d with decl := move d.decl } }

/-- The diagnostic of a problem in the description `name`. -/
def loadDiagnostic (name : String) (loc : Location) (p : LoadProblem) : Diagnostic :=
  { (Cause.invalid p.message).diagnostic loc with file := name }

/-- The file of the module `path` that the text of a runtime describes, and the number of its
declarations. -/
def readPrelude (reader : Yaml.Reader) (path text : String) :
    Except Diagnostic (SourceFile × Nat) :=
  match (Load.files reader text).run 0 with
  | .ok ([f], next) => .ok (f.asPrelude path, next)
  | .ok _ => .error ((Cause.invalid "invalid runtime prelude").diagnostic Location.nowhere)
  | .error (loc, p) => .error (loadDiagnostic "prelude.yaml" loc p)

/-- The path of the file that declares the runtime `module`. -/
def runtimePath (module : String) : String := if module = "" then defaultModule else module

/-- The program of the runtime `module`, which the text `runtime` describes, and the description
`text` called `name`, for a way to read descriptions. -/
def loadWith (reader : Yaml.Reader) (runtime module name text : String) :
    Except Diagnostic Program := do
  let (prelude, next) ← readPrelude reader (runtimePath module) runtime
  match (Load.files reader text).run next with
  | .ok (files, _) => .ok ⟨prelude :: files⟩
  | .error (loc, p) => .error (loadDiagnostic name loc p)

/-- The program of the runtime `module` and the description `text` called `name`. -/
def loadProgram (module name text : String) : Except Diagnostic Program :=
  loadWith Yaml.parse preludeText module name text

/-- The program that declares the runtime only. -/
def loadEmpty (module : String) : Except Diagnostic Program := do
  let (prelude, _) ← readPrelude Yaml.parse (runtimePath module) preludeText
  return ⟨[prelude]⟩

end Componentry
