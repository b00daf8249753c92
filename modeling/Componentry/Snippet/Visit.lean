import Componentry.Snippet.Tree

/-!
# Visiting a tree

The nodes of a statement in depth-first order, each before its parts. Types, parameters and the
keys of object literals are not visited. A caller may ask for the parts of some nodes to be
skipped.
-/

namespace Componentry

def Expr.kind : Expr → String
  | .literal _ _ => "LiteralExpr"
  | .name _ _ => "IdentifierExpr"
  | .self _ => "ThisExpr"
  | .parent _ => "SuperExpr"
  | .member _ _ _ => "MemberExpr"
  | .index _ _ _ => "IndexExpr"
  | .call _ _ _ => "CallExpr"
  | .create _ _ _ => "NewExpr"
  | .array _ _ => "ArrayExpr"
  | .object _ _ => "ObjectExpr"
  | .arrow _ _ _ => "ArrowFunc"
  | .binary _ _ _ _ => "BinaryExpr"
  | .unary _ _ _ => "UnaryExpr"
  | .assign _ _ _ => "AssignExpr"

def Stmt.kind : Stmt → String
  | .run _ _ => "ExprStmt"
  | .bind _ _ _ _ _ => "VarStmt"
  | .yield _ _ => "ReturnStmt"
  | .block _ _ => "BlockStmt"

/-- A node that is visited: an expression or a statement. -/
inductive Node where
  | expr (e : Expr)
  | stmt (s : Stmt)

def Node.kind : Node → String
  | .expr e => e.kind
  | .stmt s => s.kind

mutual

/-- The nodes of an expression; the parts of a node are visited unless `stop` holds of it. -/
def Expr.visit (stop : Node → Bool) : Expr → List Node
  | e@(.literal _ _) | e@(.name _ _) | e@(.self _) | e@(.parent _) => [.expr e]
  | e@(.member _ object _) => .expr e :: if stop (.expr e) then [] else object.visit stop
  | e@(.index _ object key) =>
    .expr e :: if stop (.expr e) then [] else object.visit stop ++ key.visit stop
  | e@(.call _ callee args) =>
    .expr e :: if stop (.expr e) then [] else callee.visit stop ++ Expr.visitAll stop args
  | e@(.create _ callee args) =>
    .expr e :: if stop (.expr e) then [] else callee.visit stop ++ Expr.visitAll stop args
  | e@(.array _ elements) =>
    .expr e :: if stop (.expr e) then [] else Expr.visitAll stop elements
  | e@(.object _ properties) =>
    .expr e :: if stop (.expr e) then [] else Property.visitAll stop properties
  | e@(.arrow _ _ body) => .expr e :: if stop (.expr e) then [] else body.visit stop
  | e@(.binary _ _ left right) =>
    .expr e :: if stop (.expr e) then [] else left.visit stop ++ right.visit stop
  | e@(.unary _ _ operand) => .expr e :: if stop (.expr e) then [] else operand.visit stop
  | e@(.assign _ target value) =>
    .expr e :: if stop (.expr e) then [] else target.visit stop ++ value.visit stop

def Expr.visitAll (stop : Node → Bool) : List Expr → List Node
  | [] => []
  | e :: es => e.visit stop ++ Expr.visitAll stop es

/-- The nodes of the values of an object literal. -/
def Property.visitAll (stop : Node → Bool) : List Property → List Node
  | [] => []
  | .mk _ _ value :: ps => value.visit stop ++ Property.visitAll stop ps

/-- The nodes of the body of an arrow function. -/
def ArrowBody.visit (stop : Node → Bool) : ArrowBody → List Node
  | .value e => e.visit stop
  | .block body => Stmt.visitAll stop body

def Stmt.visit (stop : Node → Bool) : Stmt → List Node
  | s@(.run _ e) => .stmt s :: if stop (.stmt s) then [] else e.visit stop
  | s@(.bind _ _ _ _ none) => [.stmt s]
  | s@(.bind _ _ _ _ (some e)) => .stmt s :: if stop (.stmt s) then [] else e.visit stop
  | s@(.yield _ none) => [.stmt s]
  | s@(.yield _ (some e)) => .stmt s :: if stop (.stmt s) then [] else e.visit stop
  | s@(.block _ body) => .stmt s :: if stop (.stmt s) then [] else Stmt.visitAll stop body

def Stmt.visitAll (stop : Node → Bool) : List Stmt → List Node
  | [] => []
  | s :: ss => s.visit stop ++ Stmt.visitAll stop ss

end

/-- Every node of an expression. -/
def Expr.nodes (e : Expr) : List Node := e.visit fun _ => false

def Node.loc : Node → Location
  | .expr e => e.loc
  | .stmt s => s.loc

end Componentry
