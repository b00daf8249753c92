import Componentry.Program.Model

/-!
# Names and declarations

Looking up what a name stands for, and what a declaration declares. A name is looked up in one file
first, then in all files in order.
-/

namespace Componentry.Program

def class? (p : Program) (d : Declaration) : Option ClassDecl :=
  p.files.findSome? fun f => f.classes.find? (·.decl.id == d.id)

def interface? (p : Program) (d : Declaration) : Option InterfaceDecl :=
  p.files.findSome? fun f => f.interfaces.find? (·.decl.id == d.id)

def alias? (p : Program) (d : Declaration) : Option AliasDecl :=
  p.files.findSome? fun f => f.aliases.find? (·.decl.id == d.id)

def decorator? (p : Program) (d : Declaration) : Option DecoratorDecl :=
  p.files.findSome? fun f => f.decorators.find? (·.decl.id == d.id)

/-- The file that holds a declaration. -/
def fileOf? (p : Program) (d : Declaration) : Option SourceFile :=
  p.files.find? fun f => f.declarations.any (·.id == d.id)

/-- The declaration that a name stands for in a file. -/
def resolve? (p : Program) (scope : Option SourceFile) (name : String) : Option Declaration :=
  match scope.bind fun f => f.declarations.find? (·.name == name) with
  | some d => some d
  | none => (p.find name).head?

/-- The class that a class extends. -/
def superclass? (p : Program) (c : ClassDecl) : Option ClassDecl :=
  match c.parent with
  | some (.reference _ name _) =>
    (p.resolve? (p.fileOf? c.decl) name).bind fun d => p.class? d
  | _ => none

/-- All classes of a program. -/
def classes (p : Program) : List ClassDecl := p.files.flatMap (·.classes)

/-- The superclass, its superclass, and so on, for at most `n` steps and up to a class in `seen`. -/
def ancestorsFrom (p : Program) : Nat → List Nat → ClassDecl → List Declaration
  | 0, _, _ => []
  | n + 1, seen, c =>
    match p.superclass? c with
    | none => []
    | some parent =>
      if seen.contains parent.decl.id then []
      else parent.decl :: p.ancestorsFrom n (parent.decl.id :: seen) parent

/-- The ancestors of a class, the nearest first, each once. -/
def ancestors (p : Program) (c : ClassDecl) : List Declaration :=
  p.ancestorsFrom p.classes.length [c.decl.id] c

end Componentry.Program
