import Componentry.Snippet.Tree

/-!
# Printing syntax trees

Trees are printed on one line. Operands that are themselves operator applications, assignments or
arrow functions are put in parentheses, so that no printed text depends on precedence; so is an
arrow function that is called, and an object literal that is the result of an arrow function.
-/

namespace Componentry

/-- The text, in parentheses if asked for. -/
def parenthesized (wrap : Bool) (s : String) : String := if wrap then "(" ++ s ++ ")" else s

/-- An expression that needs parentheses as an operand. -/
def Expr.isCompound : Expr → Bool
  | .binary _ _ _ _ | .assign _ _ _ | .arrow _ _ _ => true
  | _ => false

def Expr.isArrow : Expr → Bool
  | .arrow _ _ _ => true
  | _ => false

def Expr.isObject : Expr → Bool
  | .object _ _ => true
  | _ => false

/-- A type that needs parentheses before `[]`. -/
def TypeExpr.isCompound : TypeExpr → Bool
  | .union _ _ | .intersection _ _ | .function _ _ _ | .conditional _ _ _ _ _ => true
  | _ => false

/-- What a declaration statement binds, as source text. -/
def Binding.print : Binding → String
  | .name n => n
  | .elements ns => "[" ++ String.intercalate ", " ns ++ "]"

mutual

def Expr.print : Expr → String
  | .literal _ v => v.source
  | .name _ n => n
  | .self _ => "this"
  | .parent _ => "super"
  | .member _ object property => object.print ++ "." ++ property
  | .index _ object key => object.print ++ "[" ++ key.print ++ "]"
  | .call _ callee args =>
    parenthesized callee.isArrow callee.print ++ "(" ++ Expr.printAll args ++ ")"
  | .create _ callee args => "new " ++ callee.print ++ "(" ++ Expr.printAll args ++ ")"
  | .array _ elements => "[" ++ Expr.printAll elements ++ "]"
  | .object _ [] => "\x7b\x7d"
  | .object _ (p :: ps) => "\x7b " ++ Property.printAll (p :: ps) ++ " \x7d"
  | .arrow _ params body => "(" ++ Param.printAll params ++ ") => " ++ body.print
  | .binary _ op left right =>
    parenthesized left.isCompound left.print ++ " " ++ op.spelling ++ " " ++
      parenthesized right.isCompound right.print
  | .unary _ op operand =>
    op.spelling ++ (if op = .typeOf then " " else "") ++
      parenthesized operand.isCompound operand.print
  | .assign _ target value => target.print ++ " = " ++ value.print

/-- Expressions separated by commas. -/
def Expr.printAll : List Expr → String
  | [] => ""
  | [e] => e.print
  | e :: f :: es => e.print ++ ", " ++ Expr.printAll (f :: es)

/-- An entry of an object literal. -/
def Property.print : Property → String
  | .mk _ key value => Text.keyText key ++ ": " ++ value.print

/-- Entries separated by commas. -/
def Property.printAll : List Property → String
  | [] => ""
  | [p] => p.print
  | p :: q :: ps => p.print ++ ", " ++ Property.printAll (q :: ps)

/-- The body of an arrow function. -/
def ArrowBody.print : ArrowBody → String
  | .value e => parenthesized e.isObject e.print
  | .block [] => "\x7b\x7d"
  | .block (s :: ss) => "\x7b " ++ Stmt.printAll (s :: ss) ++ "\x7d"

/-- A statement as source text, with its closing semicolon. -/
def Stmt.print : Stmt → String
  | .run _ e => e.print ++ ";"
  | .bind _ kind binding type value =>
    kind.keyword ++ " " ++ binding.print ++ TypeExpr.printSuffix type ++
      Expr.printInit value ++ ";"
  | .yield _ none => "return;"
  | .yield _ (some e) => "return " ++ e.print ++ ";"
  | .block _ [] => "\x7b\x7d"
  | .block _ (s :: ss) => "\x7b " ++ Stmt.printAll (s :: ss) ++ "\x7d"

/-- Statements, each followed by a blank. -/
def Stmt.printAll : List Stmt → String
  | [] => ""
  | s :: ss => s.print ++ " " ++ Stmt.printAll ss

/-- An initial value, if there is one. -/
def Expr.printInit : Option Expr → String
  | none => ""
  | some e => " = " ++ e.print

def TypeExpr.print : TypeExpr → String
  | .reference _ name [] => name
  | .reference _ name (a :: as) => name ++ "<" ++ TypeExpr.printAll ", " (a :: as) ++ ">"
  | .literal _ v => v.source
  | .union _ members => TypeExpr.printAll " | " members
  | .intersection _ members => TypeExpr.printAll " & " members
  | .array _ element => parenthesized element.isCompound element.print ++ "[]"
  | .tuple _ elements => "[" ++ TypeExpr.printAll ", " elements ++ "]"
  | .object _ [] => "\x7b\x7d"
  | .object _ (p :: ps) => "\x7b " ++ PropertyType.printAll (p :: ps) ++ " \x7d"
  | .query _ subject => "typeof " ++ subject.print
  | .function _ params none => "(" ++ Param.printAll params ++ ") => void"
  | .function _ params (some result) => "(" ++ Param.printAll params ++ ") => " ++ result.print
  | .conditional _ tested bound whenTrue whenFalse =>
    tested.print ++ " extends " ++ bound.print ++ " ? " ++ whenTrue.print ++ " : " ++
      whenFalse.print

/-- Types with a separator between them. -/
def TypeExpr.printAll (sep : String) : List TypeExpr → String
  | [] => ""
  | [t] => t.print
  | t :: u :: ts => t.print ++ sep ++ TypeExpr.printAll sep (u :: ts)

/-- A declared type after its colon, if there is one. -/
def TypeExpr.printSuffix : Option TypeExpr → String
  | none => ""
  | some t => ": " ++ t.print

/-- A property of an object type. -/
def PropertyType.print : PropertyType → String
  | .mk name optional type =>
    Text.keyText name ++ (if optional then "?" else "") ++ ": " ++ type.print

/-- Properties separated by semicolons. -/
def PropertyType.printAll : List PropertyType → String
  | [] => ""
  | [p] => p.print
  | p :: q :: ps => p.print ++ "; " ++ PropertyType.printAll (q :: ps)

/-- A parameter with its modifier and its type. -/
def Param.print : Param → String
  | .mk _ modifier name optional type =>
    (match modifier with
      | some m => m.spelling ++ " "
      | none => "") ++
      name ++ (if optional then "?" else "") ++ TypeExpr.printSuffix type

/-- Parameters separated by commas. -/
def Param.printAll : List Param → String
  | [] => ""
  | [p] => p.print
  | p :: q :: ps => p.print ++ ", " ++ Param.printAll (q :: ps)

end

def TypeParam.print (p : TypeParam) : String :=
  match p.default with
  | some t => p.name ++ " = " ++ t.print
  | none => p.name

end Componentry
