import Componentry.Types.Fields

/-!
# Assignability

`assignable g target source` tells whether every value of the type `source` fits the type `target`.
Types that are not known fit nothing and nothing fits them.

Types may contain themselves, so a pair of nodes is compared once: a pair that has been met before
in the same comparison is taken to fit, whatever became of it. Every call below notes a new pair or
ends at once, and there are finitely many pairs, which bounds the recursion.
-/

namespace Componentry

/-- What a comparison remembers: the pairs met, and a number that no node has yet. -/
structure Comparison where
  seen : List (NodeId × NodeId)
  next : NodeId

/-- A part of a comparison; it has no answer if the bound on recursion is reached. -/
abbrev Compare := StateT Comparison Option

namespace Compare

/-- Note a pair of nodes; tells whether it is new. -/
def note (target source : Ty) : Compare Bool := do
  let c ← get
  let key := (target.id, source.id)
  if c.seen.contains key then return false
  set { c with seen := key :: c.seen }
  return true

/-- A number for a new node. -/
def fresh : Compare NodeId := do
  let c ← get
  set { c with next := c.next + 1 }
  return c.next

/-- The test holds of every item; it stops at the first failure. -/
def every {α : Type} (test : α → Compare Bool) : List α → Compare Bool
  | [] => return true
  | a :: as => do
    if ← test a then every test as else return false

/-- The test holds of an item; it stops at the first success. -/
def some {α : Type} (test : α → Compare Bool) : List α → Compare Bool
  | [] => return false
  | a :: as => do
    if ← test a then return true else some test as

end Compare

/-- A type that every value fits. -/
def Ty.isTop : Ty → Bool
  | .primitive _ n => n == "any" || n == "unknown"
  | _ => false

/-- A type that fits every type. -/
def Ty.isBottom : Ty → Bool
  | .primitive _ n => n == "any" || n == "never"
  | _ => false

/-- The built-in type of a literal. -/
def Literal.tag : Literal → String
  | .text _ => "string"
  | .number _ => "number"
  | .bool _ => "boolean"
  | _ => "unknown"

/-- A reference to a class. -/
def Declaration.isClass (d : Declaration) : Bool := d.kind == .classDecl

/-- The class `decl` with the ancestors `bases` is the class `ancestor` or one of its
descendants. -/
def inherits (decl : Declaration) (bases : List Declaration) (ancestor : Declaration) : Bool :=
  decl.id == ancestor.id || bases.any (·.id == ancestor.id)

/-- Comparison of two types. -/
abbrev CompareTypes := Ty → Ty → Compare Bool

/-- What a reference that is not a class stands for. -/
def Graph.unwrap? (g : Graph) : Ty → Option Ty
  | .reference i decl _ _ => if decl.isClass then none else g.target? i
  | _ => none

/-- Two references to one declaration. -/
def Ty.sameDeclaration : Ty → Ty → Bool
  | .reference _ d _ _, .reference _ e _ _ => d.id == e.id
  | _, _ => false

/-- A built-in type other than the tops, and a source that is no union, intersection or known
alias. -/
def primitiveFits (name : String) : Ty → Bool
  | .primitive _ n => n == name
  | .literal _ v => v.tag == name
  | .object _ _ | .array _ _ | .tuple _ _ => name == "object"
  | .reference _ decl _ _ => name == "object" && decl.isClass
  | _ => false

/-- The fields of a target against those of a source: a field may be missing if it is optional, and
an optional field does not fit one that is not. -/
def fieldsFit (self : CompareTypes) (source : List TyField) : List TyField → Compare Bool :=
  Compare.every fun f =>
    match findField source f.name with
    | none => return f.optional
    | some s => if s.optional && !f.optional then return false else self f.type s.type

/-- Elements of two lists place by place. -/
def elementsFit (self : CompareTypes) (targets sources : List Ty) : Compare Bool :=
  if targets.length = sources.length then
    Compare.every (fun p => self p.1 p.2) (targets.zip sources)
  else return false

/-- A target that is no union or intersection, and a source that is neither, nor stands for a type
that could be looked at instead. -/
def partsFit (g : Graph) (self : CompareTypes) (target source : Ty) : Compare Bool := do
  match target, source with
  | .primitive _ name, _ => return primitiveFits name source
  | .array _ e, .array _ f => self e f
  | .array _ e, .tuple _ fs => Compare.every (self e) fs
  | .tuple _ es, .tuple _ fs => elementsFit self es fs
  | .object _ fs, .object _ gs => fieldsFit self gs fs
  | .reference _ d as _, .reference _ e bs bases =>
    if e.id == d.id then return Ty.sameAll bs as
    else if d.isClass && e.isClass then return inherits e bases d
    else match g.unwrap? target with
      | some t => self t source
      | none => return false
  | .reference _ _ _ _, _ =>
    match g.unwrap? target with
    | some t => self t source
    | none => return false
  | _, _ => return false

/-- A target that is no union or intersection and a source that is no union. Of an intersection one
member has to fit, or all of them merged into one object type. -/
def sourceFits (g : Graph) (self : CompareTypes) (target source : Ty) : Compare Bool := do
  match source with
  | .intersection _ members =>
    if ← Compare.some (self target) members then return true
    match mergedFields g source with
    | some fields => self target (.object (← Compare.fresh) fields)
    | none => return false
  | _ =>
    match g.unwrap? source with
    | some t =>
      if target.sameDeclaration source then partsFit g self target source else self target t
    | none => partsFit g self target source

/-- A source that is no union: it has to fit one member of a union, and every member of an
intersection. -/
def targetFits (g : Graph) (self : CompareTypes) (target source : Ty) : Compare Bool :=
  match target with
  | .union _ members => Compare.some (fun m => self m source) members
  | .intersection _ members => Compare.every (fun m => self m source) members
  | _ => sourceFits g self target source

/-- One step of the comparison. Every member of a source that is a union has to fit. -/
def compareStep (g : Graph) (self : CompareTypes) (target source : Ty) : Compare Bool := do
  if target.isTop || source.isBottom then return true
  if source.isUnknown || target.isUnknown then return false
  if target.same source then return true
  if !(← Compare.note target source) then return true
  match source with
  | .union _ members => Compare.every (self target) members
  | _ => targetFits g self target source

/-- The comparison with at most `n` steps inside one another. -/
def compareWithin (g : Graph) : Nat → CompareTypes
  | 0 => fun _ _ => failure
  | n + 1 => compareStep g fun t s c => compareWithin g n t s c

/-- A bound on the pairs that a comparison can meet. -/
def compareBound (g : Graph) (target source : Ty) : Nat :=
  Nat.pow (g.size + target.size + source.size + 2) 4

/-- The answer of the comparison, if the bound is kept. A target that is not known has it at
once. -/
def assignable? (g : Graph) (target source : Ty) : Option Bool :=
  if target.isUnknown then some false
  else ((compareWithin g (compareBound g target source) target source).run
    ⟨[], g.next⟩).map Prod.fst

/-- Every value of the source type fits the target type. -/
def assignable (g : Graph) (target source : Ty) : Bool := (assignable? g target source).getD false

end Componentry
