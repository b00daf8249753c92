import Componentry.Proofs.Snippet.Moving
import Componentry.Proofs.Snippet.Printed

/-!
# Trees that print faithfully

Parentheses are not kept in a tree, and printing puts back only some of those that the grammar asks
for. `Expr.fits` says of an expression that it can stand in a slot of the grammar the way it is
printed: what it prints without parentheses must be of a form that the slot takes, and must not
begin with a token that the slot reads in another way. `Expr.Faithful` is this for a slot that takes
every expression.

The slots of a type also differ in what may follow them: a function type takes in all operators
after its result, so it must come last.

`Expr.bare` is an expression without its locations.
-/

namespace Componentry

open List

/-! ## Trees without locations -/

mutual

/-- The expression without its locations. -/
def Expr.bare : Expr → Expr
  | .literal _ v => .literal .nowhere v
  | .name _ n => .name .nowhere n
  | .self _ => .self .nowhere
  | .parent _ => .parent .nowhere
  | .member _ o p => .member .nowhere o.bare p
  | .index _ o k => .index .nowhere o.bare k.bare
  | .call _ c args => .call .nowhere c.bare (Expr.bareAll args)
  | .create _ c args => .create .nowhere c.bare (Expr.bareAll args)
  | .array _ es => .array .nowhere (Expr.bareAll es)
  | .object _ ps => .object .nowhere (Property.bareAll ps)
  | .arrow _ ps b => .arrow .nowhere (Param.bareAll ps) b.bare
  | .binary _ op l r => .binary .nowhere op l.bare r.bare
  | .unary _ op x => .unary .nowhere op x.bare
  | .assign _ t v => .assign .nowhere t.bare v.bare

def Expr.bareAll : List Expr → List Expr
  | [] => []
  | e :: es => e.bare :: Expr.bareAll es

def Expr.bare? : Option Expr → Option Expr
  | none => none
  | some e => some e.bare

def Property.bare : Property → Property
  | .mk _ k v => .mk .nowhere k v.bare

def Property.bareAll : List Property → List Property
  | [] => []
  | p :: ps => p.bare :: Property.bareAll ps

def ArrowBody.bare : ArrowBody → ArrowBody
  | .value e => .value e.bare
  | .block ss => .block (Stmt.bareAll ss)

def Stmt.bare : Stmt → Stmt
  | .run _ e => .run .nowhere e.bare
  | .bind _ kind binding t v => .bind .nowhere kind binding (TypeExpr.bare? t) (Expr.bare? v)
  | .yield _ v => .yield .nowhere (Expr.bare? v)
  | .block _ ss => .block .nowhere (Stmt.bareAll ss)

def Stmt.bareAll : List Stmt → List Stmt
  | [] => []
  | s :: ss => s.bare :: Stmt.bareAll ss

def TypeExpr.bare : TypeExpr → TypeExpr
  | .reference _ n args => .reference .nowhere n (TypeExpr.bareAll args)
  | .literal _ v => .literal .nowhere v
  | .union _ ms => .union .nowhere (TypeExpr.bareAll ms)
  | .intersection _ ms => .intersection .nowhere (TypeExpr.bareAll ms)
  | .array _ t => .array .nowhere t.bare
  | .tuple _ ts => .tuple .nowhere (TypeExpr.bareAll ts)
  | .object _ ps => .object .nowhere (PropertyType.bareAll ps)
  | .query _ e => .query .nowhere e.bare
  | .function _ ps r => .function .nowhere (Param.bareAll ps) (TypeExpr.bare? r)
  | .conditional _ a b c d => .conditional .nowhere a.bare b.bare c.bare d.bare

def TypeExpr.bareAll : List TypeExpr → List TypeExpr
  | [] => []
  | t :: ts => t.bare :: TypeExpr.bareAll ts

def TypeExpr.bare? : Option TypeExpr → Option TypeExpr
  | none => none
  | some t => some t.bare

def PropertyType.bare : PropertyType → PropertyType
  | .mk n optional t => .mk n optional t.bare

def PropertyType.bareAll : List PropertyType → List PropertyType
  | [] => []
  | p :: ps => p.bare :: PropertyType.bareAll ps

def Param.bare : Param → Param
  | .mk _ m n optional t => .mk .nowhere m n optional (TypeExpr.bare? t)

def Param.bareAll : List Param → List Param
  | [] => []
  | p :: ps => p.bare :: Param.bareAll ps

end

/-- The second expression is the first, locations apart. -/
abbrev Expr.Same (e e' : Expr) : Prop := e'.bare = e.bare

/-- The same for entries of objects. -/
abbrev Property.Same (p p' : Property) : Prop := p'.bare = p.bare

/-- The same for bodies. -/
abbrev ArrowBody.Same (b b' : ArrowBody) : Prop := b'.bare = b.bare

/-- The same for statements. -/
abbrev Stmt.Same (s s' : Stmt) : Prop := s'.bare = s.bare

/-- The same for types. -/
abbrev TypeExpr.Same (t t' : TypeExpr) : Prop := t'.bare = t.bare

/-- The same for properties. -/
abbrev PropertyType.Same (p p' : PropertyType) : Prop := p'.bare = p.bare

/-- The same for parameters. -/
abbrev Param.Same (p p' : Param) : Prop := p'.bare = p.bare

theorem Expr.bareAll_eq : ∀ xs, Expr.bareAll xs = xs.map Expr.bare :=
  eq_map_of_cons rfl fun _ _ => rfl

theorem Property.bareAll_eq : ∀ xs, Property.bareAll xs = xs.map Property.bare :=
  eq_map_of_cons rfl fun _ _ => rfl

theorem Stmt.bareAll_eq : ∀ xs, Stmt.bareAll xs = xs.map Stmt.bare :=
  eq_map_of_cons rfl fun _ _ => rfl

theorem TypeExpr.bareAll_eq : ∀ xs, TypeExpr.bareAll xs = xs.map TypeExpr.bare :=
  eq_map_of_cons rfl fun _ _ => rfl

theorem PropertyType.bareAll_eq : ∀ xs, PropertyType.bareAll xs = xs.map PropertyType.bare :=
  eq_map_of_cons rfl fun _ _ => rfl

theorem Param.bareAll_eq : ∀ xs, Param.bareAll xs = xs.map Param.bare :=
  eq_map_of_cons rfl fun _ _ => rfl

/-! ## Slots -/

/-- A text whose quoted form is read as the text itself. -/
def Text.isPlain (s : String) : Bool :=
  s.toList.all fun c => isPrintable c || c = '\t' || c = '\n' || c = '\r'

/-- A key that is read back as it is printed. -/
def Text.isPlainKey (s : String) : Bool := isIdentifier s || isPlain s

/-- Where an expression can stand. -/
inductive Slot where
  /-- After `new`. -/
  | created
  /-- Before a dot, a bracket or arguments, where nothing has been read yet. -/
  | callee
  /-- The same at the start of an operand, where `typeof` is an operator. -/
  | start
  /-- Beside an operator. -/
  | operand
  /-- Before `=`. -/
  | operators
  /-- Between separators. -/
  | whole
  deriving DecidableEq, Repr

namespace Slot

/-- The slot of what stands in front of a dot, a bracket or arguments. -/
def object : Slot → Slot
  | .created => .created
  | .callee => .callee
  | _ => .start

/-- The slot takes calls and elements. -/
def takesCalls : Slot → Bool
  | .created => false
  | _ => true

/-- The slot takes an operator with its operand. -/
def takesUnary : Slot → Bool
  | .operand | .operators | .whole => true
  | _ => false

/-- The slot takes an operator between operands. -/
def takesBinary : Slot → Bool
  | .operators | .whole => true
  | _ => false

/-- The word stands for a name in the slot. -/
def takesName (slot : Slot) (w : String) : Bool :=
  w ∉ ["true", "false", "null", "this", "super"] &&
    match slot with
    | .created => true
    | .callee => w != "new"
    | _ => w != "new" && w != "typeof"

end Slot

/-- Where a type can stand. -/
inductive TypeSlot where
  /-- Before `[]`. -/
  | element
  /-- Beside `&`. -/
  | part
  /-- Beside `|`. -/
  | member
  /-- Before or after `extends`. -/
  | union
  /-- Between separators. -/
  | whole
  deriving DecidableEq, Repr

namespace TypeSlot

/-- The slot takes unions. -/
def takesUnions : TypeSlot → Bool
  | .union | .whole => true
  | _ => false

/-- The slot takes intersections. -/
def takesIntersections : TypeSlot → Bool
  | .member | .union | .whole => true
  | _ => false

end TypeSlot

/-- A literal that is read back where an expression stands. -/
def Literal.isPlain : Literal → Bool
  | .null | .bool _ => true
  | .text s => Text.isPlain s
  | .number (.finite negative _ _) => !negative
  | .number _ => true
  | .list _ => false

/-- A literal that is read back where a type stands. -/
def Literal.isPlainType : Literal → Bool
  | .bool _ | .number _ => true
  | .text s => Text.isPlain s
  | .null | .list _ => false

/-- The name of a type that is not read as something else. -/
def isTypeName (name : String) : Bool :=
  (nameWords name).headD "" ∉ ["true", "false", "typeof"]

/-- An expression that can be the result of an arrow function the way it is printed: an object
literal is put in parentheses, and nothing else may begin like a block. -/
def Expr.startsResult (e : Expr) : Bool :=
  e.isObject || e.kinds.head? ≠ some (.punct .lbrace)

/-- An expression that can be a statement the way it is printed. -/
def Expr.startsStatement (e : Expr) : Bool :=
  e.kinds.head? ∉ [some (.punct .lbrace), some (.word "const"), some (.word "let"),
    some (.word "return")]

/-- The slot of an operand: one that is put in parentheses may be any expression. -/
def Expr.operandSlot (e : Expr) : Slot := if e.isCompound then .whole else .operand

/-- The slot of what is called: an arrow function is put in parentheses. -/
def Expr.calleeSlot (slot : Slot) (e : Expr) : Slot := if e.isArrow then .whole else slot.object

mutual

/-- The expression can stand in the slot the way it is printed. -/
def Expr.fits : Slot → Expr → Bool
  | _, .literal _ v => v.isPlain
  | slot, .name _ n => slot.takesName n
  | _, .self _ | _, .parent _ => true
  | slot, .member _ o _ => o.fits slot.object
  | slot, .index _ o k => slot.takesCalls && o.fits slot.object && k.fits .whole
  | slot, .call _ c args =>
    slot.takesCalls && c.fits (c.calleeSlot slot) && Expr.fitsAll args
  | slot, .create _ c args => slot.takesCalls && c.fits .created && Expr.fitsAll args
  | _, .array _ es => Expr.fitsAll es
  | _, .object _ ps => Property.fitsAll ps
  | slot, .arrow _ ps b => slot = .whole && Param.fitsAll ps && b.fits
  | slot, .binary _ _ l r => slot.takesBinary && l.fits l.operandSlot && r.fits r.operandSlot
  | slot, .unary _ _ x => slot.takesUnary && x.fits x.operandSlot
  | slot, .assign _ t v =>
    slot = .whole && Snippet.isTarget t && t.fits .operators && v.fits .whole

def Expr.fitsAll : List Expr → Bool
  | [] => true
  | e :: es => e.fits .whole && Expr.fitsAll es

def Expr.fits? : Option Expr → Bool
  | none => true
  | some e => e.fits .whole

def Property.fits : Property → Bool
  | .mk _ k v => Text.isPlainKey k && v.fits .whole

def Property.fitsAll : List Property → Bool
  | [] => true
  | p :: ps => p.fits && Property.fitsAll ps

def ArrowBody.fits : ArrowBody → Bool
  | .value e => e.fits .whole && e.startsResult
  | .block ss => Stmt.fitsAll ss

def Stmt.fits : Stmt → Bool
  | .run _ e => e.fits .whole && e.startsStatement
  | .bind _ _ _ t v => TypeExpr.fits? t && Expr.fits? v
  | .yield _ v => Expr.fits? v
  | .block _ ss => Stmt.fitsAll ss

def Stmt.fitsAll : List Stmt → Bool
  | [] => true
  | s :: ss => s.fits && Stmt.fitsAll ss

/-- The type can stand in the slot the way it is printed; `last` says that no operator follows the
slot. -/
def TypeExpr.fits : TypeSlot → Bool → TypeExpr → Bool
  | _, _, .reference _ n args => isTypeName n && TypeExpr.fitsAll args
  | _, _, .literal _ v => v.isPlainType
  | slot, last, .union _ ms =>
    slot.takesUnions && 2 ≤ ms.length && TypeExpr.fitsMembers .member last ms
  | slot, last, .intersection _ ms =>
    slot.takesIntersections && 2 ≤ ms.length && TypeExpr.fitsMembers .part last ms
  | _, _, .array _ t => if t.isCompound then t.fits .whole true else t.fits .element true
  | _, _, .tuple _ ts => TypeExpr.fitsAll ts
  | _, _, .object _ ps => PropertyType.fitsAll ps
  | slot, _, .query _ e => slot != .element && e.fits .callee
  | slot, last, .function _ ps r =>
    slot != .element && last && Param.fitsAll ps && r.isSome && TypeExpr.fits? r
  | slot, _, .conditional _ a b c d =>
    slot = .whole && a.fits .union false && b.fits .union true && c.fits .whole true &&
      d.fits .whole true

/-- The members of a union or an intersection fit; operators follow all but the last. -/
def TypeExpr.fitsMembers (slot : TypeSlot) (last : Bool) : List TypeExpr → Bool
  | [] => true
  | [t] => t.fits slot last
  | t :: u :: ts => t.fits slot false && TypeExpr.fitsMembers slot last (u :: ts)

def TypeExpr.fitsAll : List TypeExpr → Bool
  | [] => true
  | t :: ts => t.fits .whole true && TypeExpr.fitsAll ts

def TypeExpr.fits? : Option TypeExpr → Bool
  | none => true
  | some t => t.fits .whole true

def PropertyType.fits : PropertyType → Bool
  | .mk n _ t => Text.isPlainKey n && t.fits .whole true

def PropertyType.fitsAll : List PropertyType → Bool
  | [] => true
  | p :: ps => p.fits && PropertyType.fitsAll ps

def Param.fits : Param → Bool
  | .mk _ _ _ _ t => TypeExpr.fits? t

def Param.fitsAll : List Param → Bool
  | [] => true
  | p :: ps => p.fits && Param.fitsAll ps

end

/-! ## Lists of parts -/

theorem iff_of_cons {α : Type} {p : α → Bool} {P : List α → Bool} (hnil : P [] = true)
    (hcons : ∀ x xs, P (x :: xs) = (p x && P xs)) (xs : List α) :
    P xs = true ↔ ∀ x ∈ xs, p x = true := by
  induction xs with
  | nil => simp [hnil]
  | cons x xs ih => rw [hcons, Bool.and_eq_true, ih, forall_mem_cons]

theorem Expr.fitsAll_iff : ∀ xs, Expr.fitsAll xs = true ↔ ∀ x ∈ xs, x.fits .whole = true :=
  iff_of_cons rfl fun _ _ => rfl

theorem Property.fitsAll_iff : ∀ xs, Property.fitsAll xs = true ↔ ∀ x ∈ xs, x.fits = true :=
  iff_of_cons rfl fun _ _ => rfl

theorem Stmt.fitsAll_iff : ∀ xs, Stmt.fitsAll xs = true ↔ ∀ x ∈ xs, x.fits = true :=
  iff_of_cons rfl fun _ _ => rfl

theorem TypeExpr.fitsAll_iff :
    ∀ xs, TypeExpr.fitsAll xs = true ↔ ∀ x ∈ xs, x.fits .whole true = true :=
  iff_of_cons rfl fun _ _ => rfl

theorem PropertyType.fitsAll_iff : ∀ xs, PropertyType.fitsAll xs = true ↔ ∀ x ∈ xs, x.fits = true :=
  iff_of_cons rfl fun _ _ => rfl

theorem Param.fitsAll_iff : ∀ xs, Param.fitsAll xs = true ↔ ∀ x ∈ xs, x.fits = true :=
  iff_of_cons rfl fun _ _ => rfl

/-- The printed form of the expression is read as the expression. -/
def Expr.Faithful (e : Expr) : Prop := e.fits .whole = true

end Componentry
