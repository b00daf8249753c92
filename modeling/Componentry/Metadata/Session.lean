import Componentry.Guard.Compile
import Componentry.Types.Member

/-!
# Sessions

Everything that lives through the work on one program: what has been resolved, the identifiers and
guards, and the warnings for the author. A failure keeps what has been done before it.
-/

namespace Componentry

/-- The state of the work on a program. -/
structure Session where
  resolution : Resolution
  compiler : Compiler
  warnings : List Diagnostic

def Session.start (style : IdStyle) : Session := ⟨Resolution.empty, Compiler.empty style, []⟩

/-- A step of the work. It has no result at all if resolving a type does not end. -/
abbrev Work := ExceptT Diagnostic (StateT Session Option)

namespace Work

def resolve {α : Type} (r : Resolve α) : Work α := fun s => do
  let (a, resolution) ← r.run s.resolution
  return (.ok a, { s with resolution })

/-- Compile guards of types in the graph. -/
def compile {α : Type} (c : Graph → Compile α) : Work α := fun s => do
  let (result, compiler) ← (c s.resolution.graph).run.run s.compiler
  return (result, { s with compiler })

/-- A result or a failure that needs no work. -/
def ofExcept {α : Type} (e : Except Diagnostic α) : Work α := ExceptT.mk (pure e)

/-- Give a failure more detail. -/
def detail {α : Type} (f : Diagnostic → Diagnostic) (w : Work α) : Work α := ExceptT.adapt f w

/-- The graph of all types. -/
def graph : Work Graph := do return (← get).resolution.graph

/-- Take the warnings that compiling has left. -/
def takeGuardWarnings : Work (List GuardWarning) := do
  let s ← get
  set { s with compiler := { s.compiler with warnings := [] } }
  return s.compiler.warnings

/-- Take the warnings for the author. -/
def takeWarnings : Work (List Diagnostic) := do
  let s ← get
  set { s with warnings := [] }
  return s.warnings

end Work

/-- A diagnostic about a class. -/
def ClassDecl.diagnostic (c : ClassDecl) (loc : Location) (cause : Cause) : Diagnostic :=
  { cause.diagnostic loc with file := c.decl.file, className := c.name }

end Componentry
