import Componentry.Snippet.Tree
import Mathlib.Data.List.Basic

/-!
# Names and the scopes that bind them

A block binds the names that its own statements declare, in all of it. A function binds these
together with its parameters; its parameters and the locals of its body are one scope. Everything
else that is written as a name is a use, and it is bound by the innermost scope around it that has
the name. A type annotation uses names only through `typeof`.

`uses` lists the uses in a tree in the order in which they are written, given the scopes around the
tree. A scope is told by how many scopes are around it, so that it has the same number for every
tree inside it. What putting a tree into further scopes does to its uses is `Expr.uses_append`: a
use that is bound inside the tree stays bound where it was, and any other is looked up in the
further scopes.
-/

namespace Componentry

open List

/-- The scopes around a place, the innermost first, each with the names it binds. -/
abbrev Scopes := List (List String)

/-- The scope that binds a name. -/
def Scopes.binder? : Scopes → String → Option Nat
  | [], _ => none
  | names :: outer, x => if x ∈ names then some outer.length else Scopes.binder? outer x

/-- A name that is used, and the scope that binds it; none does if the name is free. -/
structure Use where
  name : String
  scope : Option Nat
  deriving DecidableEq, Repr

/-- The use after further scopes are put around those it was looked up in. -/
def Use.within (outer : Scopes) (u : Use) : Use :=
  { u with
    scope := match u.scope with
      | some n => some (n + outer.length)
      | none => outer.binder? u.name }

/-- The names that a declaration binds. -/
def Binding.names : Binding → List String
  | .name x => [x]
  | .elements xs => xs

/-- The names that a statement declares for the block it stands in. -/
def Stmt.declares : Stmt → List String
  | .bind _ _ b _ _ => b.names
  | .run _ _ | .yield _ _ | .block _ _ => []

/-- The names that statements declare for the block they stand in. -/
def Stmt.declaredBy (ss : List Stmt) : List String := ss.flatMap Stmt.declares

/-- The names that a function binds. -/
def ArrowBody.binds (params : List Param) : ArrowBody → List String
  | .value _ => params.map Param.name
  | .block ss => params.map Param.name ++ Stmt.declaredBy ss

mutual

/-- The uses of names in an expression. -/
def Expr.uses (sc : Scopes) : Expr → List Use
  | .literal _ _ | .self _ | .parent _ => []
  | .name _ x => [⟨x, sc.binder? x⟩]
  | .member _ object _ => object.uses sc
  | .index _ object key => object.uses sc ++ key.uses sc
  | .call _ callee args => callee.uses sc ++ Expr.usesAll sc args
  | .create _ callee args => callee.uses sc ++ Expr.usesAll sc args
  | .array _ elements => Expr.usesAll sc elements
  | .object _ properties => Property.usesAll sc properties
  | .arrow _ params body =>
    Param.usesAll (body.binds params :: sc) params ++ body.uses (body.binds params :: sc)
  | .binary _ _ left right => left.uses sc ++ right.uses sc
  | .unary _ _ operand => operand.uses sc
  | .assign _ target value => target.uses sc ++ value.uses sc

def Expr.usesAll (sc : Scopes) : List Expr → List Use
  | [] => []
  | e :: es => e.uses sc ++ Expr.usesAll sc es

def Expr.usesIn (sc : Scopes) : Option Expr → List Use
  | none => []
  | some e => e.uses sc

def Property.usesAll (sc : Scopes) : List Property → List Use
  | [] => []
  | .mk _ _ value :: ps => value.uses sc ++ Property.usesAll sc ps

/-- The uses in the body of a function, inside the scope of the function. -/
def ArrowBody.uses (sc : Scopes) : ArrowBody → List Use
  | .value e => e.uses sc
  | .block ss => Stmt.usesAll sc ss

/-- The uses in a statement, inside the scope of its block. -/
def Stmt.uses (sc : Scopes) : Stmt → List Use
  | .run _ e => e.uses sc
  | .bind _ _ _ type value => TypeExpr.usesIn sc type ++ Expr.usesIn sc value
  | .yield _ value => Expr.usesIn sc value
  | .block _ ss => Stmt.usesAll (Stmt.declaredBy ss :: sc) ss

/-- The uses in statements, inside the scope of their block. -/
def Stmt.usesAll (sc : Scopes) : List Stmt → List Use
  | [] => []
  | s :: ss => s.uses sc ++ Stmt.usesAll sc ss

/-- The uses in a type annotation. -/
def TypeExpr.uses (sc : Scopes) : TypeExpr → List Use
  | .literal _ _ => []
  | .reference _ _ args => TypeExpr.usesAll sc args
  | .union _ members => TypeExpr.usesAll sc members
  | .intersection _ members => TypeExpr.usesAll sc members
  | .tuple _ elements => TypeExpr.usesAll sc elements
  | .array _ element => element.uses sc
  | .object _ properties => PropertyType.usesAll sc properties
  | .query _ subject => subject.uses sc
  | .function _ params result =>
    Param.usesAll (params.map Param.name :: sc) params ++
      TypeExpr.usesIn (params.map Param.name :: sc) result
  | .conditional _ tested bound whenTrue whenFalse =>
    tested.uses sc ++ bound.uses sc ++ whenTrue.uses sc ++ whenFalse.uses sc

def TypeExpr.usesAll (sc : Scopes) : List TypeExpr → List Use
  | [] => []
  | t :: ts => t.uses sc ++ TypeExpr.usesAll sc ts

def TypeExpr.usesIn (sc : Scopes) : Option TypeExpr → List Use
  | none => []
  | some t => t.uses sc

def PropertyType.usesAll (sc : Scopes) : List PropertyType → List Use
  | [] => []
  | .mk _ _ t :: ps => t.uses sc ++ PropertyType.usesAll sc ps

def Param.usesAll (sc : Scopes) : List Param → List Use
  | [] => []
  | .mk _ _ _ _ type :: ps => TypeExpr.usesIn sc type ++ Param.usesAll sc ps

end

/-! ## Further scopes -/

theorem Scopes.binder?_append (sc outer : Scopes) (x : String) :
    Scopes.binder? (sc ++ outer) x = (Use.within outer ⟨x, sc.binder? x⟩).scope := by
  induction sc with
  | nil => rfl
  | cons names sc ih =>
    rw [cons_append, Scopes.binder?, Scopes.binder?]
    by_cases hx : x ∈ names
    · rw [if_pos hx, if_pos hx, length_append]
      rfl
    · rw [if_neg hx, if_neg hx, ih]

section Append

variable (outer : Scopes)

attribute [local simp] Expr.uses Expr.usesAll Expr.usesIn Property.usesAll ArrowBody.uses Stmt.uses
  Stmt.usesAll TypeExpr.uses TypeExpr.usesAll TypeExpr.usesIn PropertyType.usesAll Param.usesAll

mutual

theorem Expr.uses_append : ∀ (sc : Scopes) (e : Expr),
    e.uses (sc ++ outer) = (e.uses sc).map (Use.within outer)
  | sc, .literal _ _ | sc, .self _ | sc, .parent _ => by simp
  | sc, .name _ x => by
    simp only [Expr.uses, map_cons, map_nil]
    rw [Scopes.binder?_append]
    rfl
  | sc, .member _ e _ | sc, .unary _ _ e => by simp [Expr.uses_append sc e]
  | sc, .index _ left right | sc, .binary _ _ left right | sc, .assign _ left right => by
    simp [Expr.uses_append sc left, Expr.uses_append sc right]
  | sc, .call _ callee args | sc, .create _ callee args => by
    simp [Expr.uses_append sc callee, Expr.usesAll_append sc args]
  | sc, .array _ elements => by simp [Expr.usesAll_append sc elements]
  | sc, .object _ properties => by simp [Property.usesAll_append sc properties]
  | sc, .arrow _ params body => by
    simp only [Expr.uses, map_append, ← cons_append,
      Param.usesAll_append (body.binds params :: sc) params,
      ArrowBody.uses_append (body.binds params :: sc) body]

theorem Expr.usesAll_append : ∀ (sc : Scopes) (es : List Expr),
    Expr.usesAll (sc ++ outer) es = (Expr.usesAll sc es).map (Use.within outer)
  | sc, [] => by simp
  | sc, e :: es => by simp [Expr.uses_append sc e, Expr.usesAll_append sc es]

theorem Expr.usesIn_append : ∀ (sc : Scopes) (e : Option Expr),
    Expr.usesIn (sc ++ outer) e = (Expr.usesIn sc e).map (Use.within outer)
  | sc, none => by simp
  | sc, some e => by simp [Expr.uses_append sc e]

theorem Property.usesAll_append : ∀ (sc : Scopes) (ps : List Property),
    Property.usesAll (sc ++ outer) ps = (Property.usesAll sc ps).map (Use.within outer)
  | sc, [] => by simp
  | sc, .mk _ _ value :: ps => by simp [Expr.uses_append sc value, Property.usesAll_append sc ps]

theorem ArrowBody.uses_append : ∀ (sc : Scopes) (b : ArrowBody),
    b.uses (sc ++ outer) = (b.uses sc).map (Use.within outer)
  | sc, .value e => by simp [Expr.uses_append sc e]
  | sc, .block ss => by simp [Stmt.usesAll_append sc ss]

theorem Stmt.uses_append : ∀ (sc : Scopes) (s : Stmt),
    s.uses (sc ++ outer) = (s.uses sc).map (Use.within outer)
  | sc, .run _ e => by simp [Expr.uses_append sc e]
  | sc, .bind _ _ _ type value => by
    simp [TypeExpr.usesIn_append sc type, Expr.usesIn_append sc value]
  | sc, .yield _ value => by simp [Expr.usesIn_append sc value]
  | sc, .block _ ss => by
    simp only [Stmt.uses, ← cons_append, Stmt.usesAll_append (Stmt.declaredBy ss :: sc) ss]

theorem Stmt.usesAll_append : ∀ (sc : Scopes) (ss : List Stmt),
    Stmt.usesAll (sc ++ outer) ss = (Stmt.usesAll sc ss).map (Use.within outer)
  | sc, [] => by simp
  | sc, s :: ss => by simp [Stmt.uses_append sc s, Stmt.usesAll_append sc ss]

theorem TypeExpr.uses_append : ∀ (sc : Scopes) (t : TypeExpr),
    t.uses (sc ++ outer) = (t.uses sc).map (Use.within outer)
  | sc, .literal _ _ => by simp
  | sc, .reference _ _ ts | sc, .union _ ts | sc, .intersection _ ts | sc, .tuple _ ts => by
    simp [TypeExpr.usesAll_append sc ts]
  | sc, .array _ element => by simp [TypeExpr.uses_append sc element]
  | sc, .object _ properties => by simp [PropertyType.usesAll_append sc properties]
  | sc, .query _ subject => by simp [Expr.uses_append sc subject]
  | sc, .function _ params result => by
    simp only [TypeExpr.uses, map_append, ← cons_append,
      Param.usesAll_append (params.map Param.name :: sc) params,
      TypeExpr.usesIn_append (params.map Param.name :: sc) result]
  | sc, .conditional _ tested bound whenTrue whenFalse => by
    simp [TypeExpr.uses_append sc tested, TypeExpr.uses_append sc bound,
      TypeExpr.uses_append sc whenTrue, TypeExpr.uses_append sc whenFalse]

theorem TypeExpr.usesAll_append : ∀ (sc : Scopes) (ts : List TypeExpr),
    TypeExpr.usesAll (sc ++ outer) ts = (TypeExpr.usesAll sc ts).map (Use.within outer)
  | sc, [] => by simp
  | sc, t :: ts => by simp [TypeExpr.uses_append sc t, TypeExpr.usesAll_append sc ts]

theorem TypeExpr.usesIn_append : ∀ (sc : Scopes) (t : Option TypeExpr),
    TypeExpr.usesIn (sc ++ outer) t = (TypeExpr.usesIn sc t).map (Use.within outer)
  | sc, none => by simp
  | sc, some t => by simp [TypeExpr.uses_append sc t]

theorem PropertyType.usesAll_append : ∀ (sc : Scopes) (ps : List PropertyType),
    PropertyType.usesAll (sc ++ outer) ps = (PropertyType.usesAll sc ps).map (Use.within outer)
  | sc, [] => by simp
  | sc, .mk _ _ t :: ps => by simp [TypeExpr.uses_append sc t, PropertyType.usesAll_append sc ps]

theorem Param.usesAll_append : ∀ (sc : Scopes) (ps : List Param),
    Param.usesAll (sc ++ outer) ps = (Param.usesAll sc ps).map (Use.within outer)
  | sc, [] => by simp
  | sc, .mk _ _ _ _ type :: ps => by
    simp [TypeExpr.usesIn_append sc type, Param.usesAll_append sc ps]

end

end Append

/-! ## Statements one after another -/

theorem Stmt.usesAll_concat (sc : Scopes) (ss us : List Stmt) :
    Stmt.usesAll sc (ss ++ us) = Stmt.usesAll sc ss ++ Stmt.usesAll sc us := by
  induction ss with
  | nil => simp only [nil_append, Stmt.usesAll]
  | cons s ss ih => simp only [cons_append, Stmt.usesAll, ih, append_assoc]

theorem Stmt.declaredBy_append (ss us : List Stmt) :
    Stmt.declaredBy (ss ++ us) = Stmt.declaredBy ss ++ Stmt.declaredBy us := flatMap_append

end Componentry
