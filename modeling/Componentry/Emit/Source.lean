import Componentry.Program.Model
import Componentry.Snippet.Print

/-!
# Printing classes

A class is printed as source text: decorators, head and members on lines of their own, indented by
tabs. A block inside a body opens a level of its own; every other statement stays on one line.
-/

namespace Componentry

/-- A line at a level of indentation. -/
def indentedLine (level : Nat) (s : String) : String :=
  String.ofList (List.replicate level '\t') ++ s ++ "\n"

mutual

/-- A statement on lines of its own. -/
def Stmt.lines (level : Nat) : Stmt → String
  | .block _ body =>
    indentedLine level "\x7b" ++ Stmt.linesAll (level + 1) body ++ indentedLine level "\x7d"
  | .run l e => indentedLine level (Stmt.run l e).print
  | .bind l k b t v => indentedLine level (Stmt.bind l k b t v).print
  | .yield l v => indentedLine level (Stmt.yield l v).print

/-- Statements on lines of their own. -/
def Stmt.linesAll (level : Nat) : List Stmt → String
  | [] => ""
  | s :: ss => s.lines level ++ Stmt.linesAll level ss

end

def Field.print (f : Field) : String :=
  (if f.static then "static " else "") ++ (if f.readOnly then "readonly " else "") ++ f.name ++
    (if f.optional then "?" else if f.definite then "!" else "") ++
    TypeExpr.printSuffix f.type ++ Expr.printInit f.init

/-- A method or constructor on lines of its own. -/
def functionLines (name : String) (params : List Param) (result : Option TypeExpr)
    (body : List Stmt) : String :=
  let head := name ++ "(" ++ Param.printAll params ++ ")" ++ TypeExpr.printSuffix result
  if body.isEmpty then indentedLine 1 (head ++ " \x7b\x7d")
  else indentedLine 1 (head ++ " \x7b") ++ Stmt.linesAll 2 body ++ indentedLine 1 "\x7d"

/-- A member on lines of its own. -/
def Member.lines : Member → String
  | .field f => indentedLine 1 (f.print ++ ";")
  | .method m =>
    functionLines ((if m.static then "static " else "") ++ m.name) m.params m.result m.body
  | .constructor c => functionLines "constructor" c.params none c.body

/-- A decorator in front of a class. -/
def Decoration.line (d : Decoration) : String :=
  indentedLine 0 ("@" ++ d.name ++ "(" ++ Expr.printAll d.args ++ ")")

def ClassDecl.head (c : ClassDecl) : String :=
  "class " ++ c.name ++
    (if c.typeParams.isEmpty then ""
      else "<" ++ String.intercalate ", " (c.typeParams.map TypeParam.print) ++ ">") ++
    (match c.parent with
      | some t => " extends " ++ t.print
      | none => "") ++
    (if c.implemented.isEmpty then "" else " implements " ++ TypeExpr.printAll ", " c.implemented)

def ClassDecl.print (c : ClassDecl) : String :=
  String.join (c.decorations.map Decoration.line) ++
    if c.members.isEmpty then indentedLine 0 (c.head ++ " \x7b\x7d")
    else
      indentedLine 0 (c.head ++ " \x7b") ++ String.join (c.members.map Member.lines) ++
        indentedLine 0 "\x7d"

end Componentry
