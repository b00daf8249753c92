import Componentry.Snippet.Tree

/-!
# Programs

A program is a list of source files; a file declares classes, interfaces, type aliases and
decorators. A declaration is an identity of its own: two declarations may agree in name, kind, file
and location and still be different, so each carries a number that no other declaration of the
program has, and declarations are told apart by it.
-/

namespace Componentry

/-- What a declaration names. -/
inductive DeclKind where
  | classDecl | interfaceDecl | aliasDecl | decorator
  deriving DecidableEq, Repr, Inhabited

/-- The word for a kind of declaration. -/
def DeclKind.word : DeclKind → String
  | .classDecl => "class"
  | .interfaceDecl => "interface"
  | .aliasDecl => "type"
  | .decorator => "annotation"

/-- A named construct with its identity. -/
structure Declaration where
  id : Nat
  name : String
  kind : DeclKind
  file : String
  loc : Location
  deriving DecidableEq, Repr, Inhabited

/-- A declaration in one line. -/
def Declaration.describe (d : Declaration) : String :=
  d.kind.word ++ " " ++ d.name ++ " in " ++ d.file ++ " at " ++ d.loc.text

/-- A decorator that classes may carry. -/
structure DecoratorDecl where
  decl : Declaration
  /-- One of the runtime's own. -/
  recognized : Bool
  /-- Marks a component, with attributes, an instance and a lifecycle hook. -/
  component : Bool
  /-- Its arguments are kept and become configuration. -/
  withNodes : Bool

/-- A decorator as it is applied to a class. -/
structure Decoration where
  name : String
  args : List Expr
  loc : Location

structure InterfaceDecl where
  decl : Declaration
  typeParams : List TypeParam
  parents : List TypeExpr
  fields : List Field
  methods : List Method

structure AliasDecl where
  decl : Declaration
  typeParams : List TypeParam
  type : TypeExpr

structure ClassDecl where
  decl : Declaration
  typeParams : List TypeParam
  parent : Option TypeExpr
  implemented : List TypeExpr
  decorations : List Decoration
  members : List Member

namespace ClassDecl

def name (c : ClassDecl) : String := c.decl.name

/-- The location of a class is that of its name. -/
def loc (c : ClassDecl) : Location := c.decl.loc

/-- The first constructor of a class. -/
def constructor? (c : ClassDecl) : Option Constructor :=
  c.members.findSome? fun
    | .constructor ctor => some ctor
    | _ => none

/-- The fields of a class in order. -/
def fields (c : ClassDecl) : List Field :=
  c.members.filterMap fun
    | .field f => some f
    | _ => none

/-- The first member with a name. -/
def member? (c : ClassDecl) (name : String) : Option Member :=
  c.members.find? fun m => m.name? == some name

end ClassDecl

/-- One source file. -/
structure SourceFile where
  path : String
  /-- Declared by a dependency of the project. -/
  external : Bool
  /-- Declares only; its classes are never transformed. -/
  ambient : Bool
  classes : List ClassDecl
  interfaces : List InterfaceDecl
  aliases : List AliasDecl
  decorators : List DecoratorDecl

/-- The declarations of a file: classes, interfaces, aliases, decorators. -/
def SourceFile.declarations (f : SourceFile) : List Declaration :=
  f.classes.map (·.decl) ++ f.interfaces.map (·.decl) ++ f.aliases.map (·.decl) ++
    f.decorators.map (·.decl)

structure Program where
  files : List SourceFile

namespace Program

/-- The declarations with a name, in file order. -/
def find (p : Program) (name : String) : List Declaration :=
  p.files.flatMap fun f => f.declarations.filter (·.name == name)

/-- The number of declarations of a program. -/
def size (p : Program) : Nat := (p.files.flatMap SourceFile.declarations).length

end Program

end Componentry
