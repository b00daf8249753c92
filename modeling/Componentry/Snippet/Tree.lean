import Componentry.Location
import Componentry.Snippet.Literal

/-!
# Syntax trees

The trees that snippets are read into: expressions, statements, type annotations and parameters,
which contain one another, and on top of them the members of a class. Every node keeps the location
of its first token.
-/

namespace Componentry

/-- Operators between two operands. -/
inductive BinaryOp where
  | or | and
  | equal | unequal | strictEqual | strictUnequal
  | less | greater | lessEqual | greaterEqual
  | add | sub
  | mul | div | mod
  deriving DecidableEq, Repr, Inhabited

def BinaryOp.spelling : BinaryOp → String
  | .or => "||" | .and => "&&"
  | .equal => "==" | .unequal => "!=" | .strictEqual => "===" | .strictUnequal => "!=="
  | .less => "<" | .greater => ">" | .lessEqual => "<=" | .greaterEqual => ">="
  | .add => "+" | .sub => "-"
  | .mul => "*" | .div => "/" | .mod => "%"

/-- Operators before their operand. -/
inductive UnaryOp where
  | not | minus | typeOf
  deriving DecidableEq, Repr, Inhabited

def UnaryOp.spelling : UnaryOp → String
  | .not => "!" | .minus => "-" | .typeOf => "typeof"

/-- What a declared local may be: set once, or set again. -/
inductive BindingKind where
  | fixed | settable
  deriving DecidableEq, Repr, Inhabited

/-- The word that declares the local. -/
def BindingKind.keyword : BindingKind → String
  | .fixed => "const" | .settable => "let"

/-- What a declaration statement binds: one name, or the elements of a list in order. -/
inductive Binding where
  | name (name : String)
  | elements (names : List String)
  deriving DecidableEq, Repr, Inhabited

/-- The access word in front of a parameter. -/
inductive Modifier where
  | publicAccess | privateAccess | protectedAccess | readOnly
  deriving DecidableEq, Repr, Inhabited

namespace Modifier

def spelling : Modifier → String
  | .publicAccess => "public"
  | .privateAccess => "private"
  | .protectedAccess => "protected"
  | .readOnly => "readonly"

/-- The modifier that a word spells. -/
def ofWord? (w : String) : Option Modifier :=
  [publicAccess, privateAccess, protectedAccess, readOnly].find? (·.spelling == w)

end Modifier

mutual

inductive Expr where
  | literal (loc : Location) (value : Literal)
  | name (loc : Location) (name : String)
  | self (loc : Location)
  | parent (loc : Location)
  | member (loc : Location) (object : Expr) (property : String)
  | index (loc : Location) (object : Expr) (key : Expr)
  | call (loc : Location) (callee : Expr) (args : List Expr)
  | create (loc : Location) (callee : Expr) (args : List Expr)
  | array (loc : Location) (elements : List Expr)
  | object (loc : Location) (properties : List Property)
  | arrow (loc : Location) (params : List Param) (body : ArrowBody)
  | binary (loc : Location) (op : BinaryOp) (left : Expr) (right : Expr)
  | unary (loc : Location) (op : UnaryOp) (operand : Expr)
  | assign (loc : Location) (target : Expr) (value : Expr)

/-- One entry of an object literal. -/
inductive Property where
  | mk (loc : Location) (key : String) (value : Expr)

/-- The body of an arrow function: an expression or a block. -/
inductive ArrowBody where
  | value (result : Expr)
  | block (body : List Stmt)

inductive Stmt where
  | run (loc : Location) (expr : Expr)
  | bind (loc : Location) (kind : BindingKind) (binding : Binding) (type : Option TypeExpr)
      (value : Option Expr)
  | yield (loc : Location) (value : Option Expr)
  | block (loc : Location) (body : List Stmt)

/-- Type annotations, as they are written. -/
inductive TypeExpr where
  | reference (loc : Location) (name : String) (args : List TypeExpr)
  | literal (loc : Location) (value : Literal)
  | union (loc : Location) (members : List TypeExpr)
  | intersection (loc : Location) (members : List TypeExpr)
  | array (loc : Location) (element : TypeExpr)
  | tuple (loc : Location) (elements : List TypeExpr)
  | object (loc : Location) (properties : List PropertyType)
  | query (loc : Location) (subject : Expr)
  | function (loc : Location) (params : List Param) (result : Option TypeExpr)
  | conditional (loc : Location) (tested : TypeExpr) (bound : TypeExpr) (whenTrue : TypeExpr)
      (whenFalse : TypeExpr)

/-- One property of an object type. -/
inductive PropertyType where
  | mk (name : String) (optional : Bool) (type : TypeExpr)

/-- A parameter of a function, a method or a constructor. -/
inductive Param where
  | mk (loc : Location) (modifier : Option Modifier) (name : String) (optional : Bool)
      (type : Option TypeExpr)

end

instance : Inhabited Expr := ⟨.self Location.nowhere⟩
instance : Inhabited Stmt := ⟨.block Location.nowhere []⟩
instance : Inhabited TypeExpr := ⟨.tuple Location.nowhere []⟩
instance : Inhabited Param := ⟨.mk Location.nowhere none "" false none⟩

def Expr.loc : Expr → Location
  | .literal l _ | .name l _ | .self l | .parent l | .member l _ _ | .index l _ _ | .call l _ _
  | .create l _ _ | .array l _ | .object l _ | .arrow l _ _ | .binary l _ _ _ | .unary l _ _
  | .assign l _ _ => l

def Stmt.loc : Stmt → Location
  | .run l _ | .bind l _ _ _ _ | .yield l _ | .block l _ => l

def TypeExpr.loc : TypeExpr → Location
  | .reference l _ _ | .literal l _ | .union l _ | .intersection l _ | .array l _ | .tuple l _
  | .object l _ | .query l _ | .function l _ _ | .conditional l _ _ _ _ => l

def Property.key : Property → String
  | .mk _ key _ => key

def Property.value : Property → Expr
  | .mk _ _ value => value

namespace Param

def name : Param → String
  | .mk _ _ name _ _ => name

def loc : Param → Location
  | .mk loc _ _ _ _ => loc

def type : Param → Option TypeExpr
  | .mk _ _ _ _ type => type

end Param

namespace Expr

/-- `this.name`, written by no one. -/
def ownMember (name : String) : Expr :=
  .member Location.nowhere (.self Location.nowhere) name

end Expr

/-- The statement calls the constructor of the superclass. -/
def Stmt.isSuperCall : Stmt → Bool
  | .run _ (.call _ (.parent _) _) => true
  | _ => false

/-! ## Declared members -/

/-- A generic parameter with its default. -/
structure TypeParam where
  name : String
  default : Option TypeExpr

/-- A field of a class or of an interface. -/
structure Field where
  loc : Location
  name : String
  type : Option TypeExpr
  optional : Bool
  static : Bool
  readOnly : Bool
  /-- Declared with `!`: assigned before it is read. -/
  definite : Bool
  init : Option Expr

/-- A method of a class or of an interface. -/
structure Method where
  loc : Location
  name : String
  params : List Param
  result : Option TypeExpr
  static : Bool
  body : List Stmt

structure Constructor where
  loc : Location
  params : List Param
  body : List Stmt

/-- A member of a class. -/
inductive Member where
  | field (field : Field)
  | method (method : Method)
  | constructor (ctor : Constructor)

namespace Member

/-- The name under which a member is found. Constructors have none. -/
def name? : Member → Option String
  | .field f => some f.name
  | .method m => some m.name
  | .constructor _ => none

def loc : Member → Location
  | .field f => f.loc
  | .method m => m.loc
  | .constructor c => c.loc

end Member

end Componentry
