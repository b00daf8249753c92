import Componentry.Snippet.Grammar

/-!
# Trees at another place

`Expr.move f` is an expression with `f l` in place of every location `l`, and so for the other
trees, for tokens and for complaints. Nothing else of a tree changes.

`Entry` lists the ways in which a snippet as a whole can be read, each with the trees it gives and
the rule of the grammar that reads them.
-/

namespace Componentry

open Snippet List

variable (f : Location → Location)

/-! ## Moving -/

mutual

/-- The expression with its locations moved. -/
def Expr.move : Expr → Expr
  | .literal l v => .literal (f l) v
  | .name l n => .name (f l) n
  | .self l => .self (f l)
  | .parent l => .parent (f l)
  | .member l o p => .member (f l) o.move p
  | .index l o k => .index (f l) o.move k.move
  | .call l c args => .call (f l) c.move (Expr.moveAll args)
  | .create l c args => .create (f l) c.move (Expr.moveAll args)
  | .array l es => .array (f l) (Expr.moveAll es)
  | .object l ps => .object (f l) (Property.moveAll ps)
  | .arrow l ps b => .arrow (f l) (Param.moveAll ps) b.move
  | .binary l op a b => .binary (f l) op a.move b.move
  | .unary l op x => .unary (f l) op x.move
  | .assign l t v => .assign (f l) t.move v.move

def Expr.moveAll : List Expr → List Expr
  | [] => []
  | e :: es => e.move :: Expr.moveAll es

def Expr.move? : Option Expr → Option Expr
  | none => none
  | some e => some e.move

def Property.move : Property → Property
  | .mk l k v => .mk (f l) k v.move

def Property.moveAll : List Property → List Property
  | [] => []
  | p :: ps => p.move :: Property.moveAll ps

def ArrowBody.move : ArrowBody → ArrowBody
  | .value e => .value e.move
  | .block ss => .block (Stmt.moveAll ss)

def Stmt.move : Stmt → Stmt
  | .run l e => .run (f l) e.move
  | .bind l kind binding t v => .bind (f l) kind binding (TypeExpr.move? t) (Expr.move? v)
  | .yield l v => .yield (f l) (Expr.move? v)
  | .block l ss => .block (f l) (Stmt.moveAll ss)

def Stmt.moveAll : List Stmt → List Stmt
  | [] => []
  | s :: ss => s.move :: Stmt.moveAll ss

def TypeExpr.move : TypeExpr → TypeExpr
  | .reference l n args => .reference (f l) n (TypeExpr.moveAll args)
  | .literal l v => .literal (f l) v
  | .union l ms => .union (f l) (TypeExpr.moveAll ms)
  | .intersection l ms => .intersection (f l) (TypeExpr.moveAll ms)
  | .array l t => .array (f l) t.move
  | .tuple l ts => .tuple (f l) (TypeExpr.moveAll ts)
  | .object l ps => .object (f l) (PropertyType.moveAll ps)
  | .query l e => .query (f l) e.move
  | .function l ps r => .function (f l) (Param.moveAll ps) (TypeExpr.move? r)
  | .conditional l a b c d => .conditional (f l) a.move b.move c.move d.move

def TypeExpr.moveAll : List TypeExpr → List TypeExpr
  | [] => []
  | t :: ts => t.move :: TypeExpr.moveAll ts

def TypeExpr.move? : Option TypeExpr → Option TypeExpr
  | none => none
  | some t => some t.move

def PropertyType.move : PropertyType → PropertyType
  | .mk n optional t => .mk n optional t.move

def PropertyType.moveAll : List PropertyType → List PropertyType
  | [] => []
  | p :: ps => p.move :: PropertyType.moveAll ps

def Param.move : Param → Param
  | .mk l m n optional t => .mk (f l) m n optional (TypeExpr.move? t)

def Param.moveAll : List Param → List Param
  | [] => []
  | p :: ps => p.move :: Param.moveAll ps

end

/-- The generic parameter with its locations moved. -/
def TypeParam.move (p : TypeParam) : TypeParam := { p with default := TypeExpr.move? f p.default }

/-- The field with its locations moved. -/
def Field.move (x : Field) : Field :=
  { x with loc := f x.loc, type := TypeExpr.move? f x.type, init := Expr.move? f x.init }

/-- The method with its locations moved. -/
def Method.move (m : Method) : Method :=
  { m with
    loc := f m.loc, params := Param.moveAll f m.params, result := TypeExpr.move? f m.result,
    body := Stmt.moveAll f m.body }

/-- The token with its location moved. -/
def Token.move (t : Token) : Token := { t with loc := f t.loc }

/-- The complaint with its location moved. -/
def Snippet.ParseError.move (e : ParseError) : ParseError := { e with loc := f e.loc }

/-! ## Lists of trees -/

/-- What goes through a list item by item. -/
theorem eq_map_of_cons {α β : Type} {g : α → β} {G : List α → List β} (hnil : G [] = [])
    (hcons : ∀ x xs, G (x :: xs) = g x :: G xs) (xs : List α) : G xs = xs.map g := by
  induction xs with
  | nil => exact hnil
  | cons x xs ih => rw [hcons, ih, map_cons]

@[simp] theorem Expr.moveAll_eq : ∀ xs, Expr.moveAll f xs = xs.map (Expr.move f) :=
  eq_map_of_cons rfl fun _ _ => rfl

@[simp] theorem Property.moveAll_eq : ∀ xs, Property.moveAll f xs = xs.map (Property.move f) :=
  eq_map_of_cons rfl fun _ _ => rfl

@[simp] theorem Stmt.moveAll_eq : ∀ xs, Stmt.moveAll f xs = xs.map (Stmt.move f) :=
  eq_map_of_cons rfl fun _ _ => rfl

@[simp] theorem TypeExpr.moveAll_eq : ∀ xs, TypeExpr.moveAll f xs = xs.map (TypeExpr.move f) :=
  eq_map_of_cons rfl fun _ _ => rfl

@[simp] theorem PropertyType.moveAll_eq :
    ∀ xs, PropertyType.moveAll f xs = xs.map (PropertyType.move f) :=
  eq_map_of_cons rfl fun _ _ => rfl

@[simp] theorem Param.moveAll_eq : ∀ xs, Param.moveAll f xs = xs.map (Param.move f) :=
  eq_map_of_cons rfl fun _ _ => rfl

/-! ## What moving keeps -/

@[simp] theorem Token.loc_move (t : Token) : (t.move f).loc = f t.loc := rfl

theorem Token.kind_move (t : Token) : (t.move f).kind = t.kind := rfl

theorem Token.isPunct_move (t : Token) : (t.move f).isPunct = t.isPunct := rfl

theorem Token.isWord_move (t : Token) : (t.move f).isWord = t.isWord := rfl

@[simp] theorem Expr.loc_move (e : Expr) : (e.move f).loc = f e.loc := by
  cases e <;> rfl

@[simp] theorem TypeExpr.loc_move (t : TypeExpr) : (t.move f).loc = f t.loc := by
  cases t <;> rfl

@[simp] theorem isTarget_move (e : Expr) : isTarget (e.move f) = isTarget e := by
  cases e <;> rfl

/-! ## Ways to read a snippet -/

/-- What a snippet as a whole can be read as. -/
inductive Entry where
  | type | expr | stmt | field | param | method | typeParam

namespace Entry

/-- The trees that are read. -/
def Tree : Entry → Type
  | .type => TypeExpr
  | .expr => Expr
  | .stmt => Stmt
  | .field => Field
  | .param => Param
  | .method => Method
  | .typeParam => TypeParam

/-- The rule that reads them. -/
def rule : (x : Entry) → Grammar → Parse x.Tree
  | .type => Snippet.type
  | .expr => expression
  | .stmt => statement
  | .field => Snippet.field
  | .param => Snippet.param
  | .method => Snippet.method
  | .typeParam => Snippet.typeParam

/-- The tree with its locations moved. -/
def move : (x : Entry) → x.Tree → x.Tree
  | .type => TypeExpr.move f
  | .expr => Expr.move f
  | .stmt => Stmt.move f
  | .field => Field.move f
  | .param => Param.move f
  | .method => Method.move f
  | .typeParam => TypeParam.move f

end Entry

end Componentry
