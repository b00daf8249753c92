import Componentry.Emit.Source
import Componentry.Text.Path
import Componentry.Unit

/-!
# Generated files

For each source file one file is generated. It holds the classes of the file, each followed by the
statements that register its guards and its records.
-/

namespace Componentry

/-- The first line of a generated file. -/
def generatedHeader : String := "// Code generated by flamekit. DO NOT EDIT."

/-- The statement that registers a guard. -/
def guardLine (def_ : String × Guard) : String :=
  indentedLine 0 ("Reflect.defineGuard(" ++ Text.quote def_.1 ++ ", " ++ def_.2.text ++ ");")

/-- The statement that registers a record of a class. -/
def recordLine (className : String) (r : Record) : String :=
  indentedLine 0
    ("Reflect.defineMetadata(" ++ className ++ ", " ++ Text.quote r.key ++ ", " ++ r.value.print ++
      ");")

/-- The statements that register a class. -/
def registrationLines (c : ClassOutput) : String :=
  String.join (c.guards.map guardLine) ++
    (if c.records.isEmpty then ""
      else indentedLine 0 ("// (Flamework) " ++ c.decl.name ++ " metadata")) ++
    String.join (c.records.map (recordLine c.decl.name))

/-- A class and the statements that register it. -/
def ClassOutput.print (c : ClassOutput) : String := c.decl.print ++ registrationLines c

/-- The generated file of classes that use the runtime `module`. -/
def emittedFile (module : String) (cs : List ClassOutput) : String :=
  indentedLine 0 generatedHeader ++
    (if module = "" then ""
      else indentedLine 0
        ("import \x7b Reflect, t \x7d from " ++ Text.quote module ++ ";")) ++
    (if cs.any (·.usesIdentity) then
        indentedLine 0 ("declare function " ++ identityHelper ++ "<T>(value: T): T;")
      else "") ++
    String.join (cs.map fun c => "\n" ++ c.print)

/-- Texts without repetition, each where it stands first. -/
def distinct (ss : List String) : List String :=
  ss.foldl (fun seen s => if seen.contains s then seen else seen ++ [s]) []

/-- The generated files by source path, in the order of the sources. -/
def emittedFiles (module : String) (o : UnitOutput) : List (String × String) :=
  (distinct (o.classes.map (·.file))).map fun path =>
    (path, emittedFile module (o.classes.filter (·.file == path)))

/-- Texts in order, each once. -/
def pathsInOrder (paths : List String) : List String :=
  (distinct paths).mergeSort fun a b => !(b < a)

/-- The path of the file that is generated for a source under a directory. -/
def artifactPath (dir source : String) : String :=
  Path.join [dir, Path.trimSuffix source (Path.ext source) ++ ".flamekit.ts"]

end Componentry
