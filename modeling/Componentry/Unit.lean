import Componentry.Lifecycle
import Componentry.Metadata.Record

/-!
# Transforming a program

Every class of a file that is not ambient is processed in order: its records are made, and the code
of a component is moved into its lifecycle hook. The first error ends the work; the classes before
it are kept.
-/

namespace Componentry

structure TransformOptions where
  metadata : MetadataOptions := {}
  lifecycle : LifecycleOptions := {}
  style : IdStyle := .path

structure ClassOutput where
  file : String
  /-- The class; the code of a component is moved into its hook. -/
  decl : ClassDecl
  hooked : Bool
  usesIdentity : Bool
  /-- The named guards that were first needed for this class. -/
  guards : List (String × Guard)
  records : List Record

structure UnitOutput where
  classes : List ClassOutput
  warnings : List Diagnostic
  arena : Arena
  /-- The number of identifiers given. -/
  ids : Nat
  /-- The error that ended the work. -/
  error : Option Diagnostic

/-- Some class uses the helper that gives a type to a field. -/
def UnitOutput.usesIdentity (o : UnitOutput) : Bool := o.classes.any (·.usesIdentity)

/-- Process a class of a file. -/
def transformClass (p : Program) (o : TransformOptions) (file : SourceFile) (c : ClassDecl) :
    Work ClassOutput := do
  let before := (← get).compiler.arena.size
  let info ← Work.ofExcept (decorationsOf p c)
  let records ← classRecords p o.metadata c info
  let guards := (← get).compiler.arena.entries.drop before
  if o.metadata.complete.hasComponent info then
    let r ← Work.ofExcept (c.hooked o.lifecycle)
    return { file := file.path, decl := r.decl, hooked := true, usesIdentity := r.usesIdentity
             guards, records }
  else
    return { file := file.path, decl := c, hooked := false, usesIdentity := false
             guards, records }

/-- The classes that are processed, with their files. -/
def Program.ownClasses (p : Program) : List (SourceFile × ClassDecl) :=
  (p.files.filter fun f => !f.ambient).flatMap fun f => f.classes.map fun c => (f, c)

/-- Process classes up to the first error. -/
def transformClasses (p : Program) (o : TransformOptions) :
    List ClassOutput → List (SourceFile × ClassDecl) →
      StateT Session Option (List ClassOutput × Option Diagnostic)
  | done, [] => return (done, none)
  | done, (f, c) :: rest => do
    match ← (transformClass p o f c).run with
    | .ok out => transformClasses p o (done ++ [out]) rest
    | .error e => return (done, some e)

/-- Transform a program. There is no result if resolving a type does not end. -/
def transform? (p : Program) (o : TransformOptions) : Option UnitOutput := do
  let ((classes, error), s) ←
    (transformClasses p o [] p.ownClasses).run (Session.start o.style)
  return { classes, warnings := s.warnings, arena := s.compiler.arena, ids := s.compiler.ids.size
           error }

end Componentry
