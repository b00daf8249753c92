import Componentry.Json.Value
import Componentry.Location

/-!
# Diagnostics

A diagnostic says what is wrong with a program, where, and what can be done about it. Each cause
has a code: 100 to 199 concern metadata, 200 to 299 guards, 300 to 399 the program description.
Errors end the work on a program; warnings do not.

A diagnostic is written on one line (`compact`), as a paragraph (`format`) or as a JSON document.
-/

namespace Componentry

/-- What a diagnostic is about. -/
inductive Category where
  | metadata | guard | program
  | other (name : String)
  deriving DecidableEq, Repr, Inhabited

namespace Category

def name : Category → String
  | .metadata => "metadata"
  | .guard => "guard"
  | .program => "program"
  | .other n => n

def ofName (n : String) : Category :=
  ([metadata, guard, program].find? (·.name == n)).getD (.other n)

def title : Category → String
  | .metadata => "Metadata Error"
  | .guard => "Guard Warning"
  | .program => "Program Error"
  | .other _ => "Transform Error"

end Category

/-- Whether work goes on after a diagnostic. -/
inductive Severity where
  | error | warning
  | other (name : String)
  deriving DecidableEq, Repr, Inhabited

namespace Severity

def name : Severity → String
  | .error => "error"
  | .warning => "warning"
  | .other n => n

def ofName (n : String) : Severity :=
  ([error, warning].find? (·.name == n)).getD (.other n)

/-- The sign in front of a diagnostic. -/
def icon : Severity → String
  | .error => "❌"
  | .warning => "⚠️ "
  | .other _ => "❓"

end Severity

/-- A diagnostic. Texts that are not given are empty. -/
structure Diagnostic where
  code : String
  kind : String
  category : Category
  severity : Severity
  message : String
  loc : Location
  file : String := ""
  className : String := ""
  suggestion : String := ""
  deriving DecidableEq, Repr, Inhabited

/-- Why a program cannot be processed, or only with less safety. -/
inductive Cause where
  /-- The type of `subject` is not a simple reference. -/
  | expectedReference (subject : String)
  /-- A reference that names nothing. -/
  | notFound (name : String)
  /-- The name of the lifecycle hook is taken. -/
  | collision (name : String)
  /-- The initial value of `field` reads the later field `used`. -/
  | useBefore (used field : String)
  /-- A declaration without an identifier. -/
  | identity (name : String)
  /-- The guard of `subject` accepts everything. -/
  | unrepresentable (subject reason : String)
  /-- A program description that cannot be read. -/
  | invalid (message : String)
  deriving DecidableEq, Repr

/-- The diagnostic of a cause at a location. -/
def Cause.diagnostic (loc : Location) : Cause → Diagnostic
  | .expectedReference subject =>
    { code := "FLM100", kind := "unresolved_type_reference", category := .metadata
      severity := .error, message := "expected type reference", loc
      suggestion :=
        "Give " ++ subject ++ " an explicit type that names a class or interface" }
  | .notFound name =>
    { code := "FLM100", kind := "unresolved_type_reference", category := .metadata
      severity := .error, message := "could not find declaration for '" ++ name ++ "'", loc
      suggestion := "Declare the type in the program description or the runtime prelude" }
  | .collision name =>
    { code := "FLM101", kind := "member_name_collision", category := .metadata
      severity := .error
      message := "member name collision: '" ++ name ++ "' is already declared", loc
      suggestion :=
        "Rename the member; '" ++ name ++ "' is reserved for the lifecycle hook" }
  | .useBefore used field =>
    { code := "FLM102", kind := "use_before_initialization", category := .metadata
      severity := .error, message := "'" ++ used ++ "' is used before its initialization", loc
      suggestion := "Declare '" ++ used ++ "' before '" ++ field ++ "'" }
  | .identity name =>
    { code := "FLM103", kind := "unresolved_identity", category := .metadata
      severity := .error
      message := "could not assign an identifier to '" ++ name ++ "'", loc }
  | .unrepresentable subject reason =>
    { code := "FLM200", kind := "unrepresentable_type", category := .guard
      severity := .warning
      message :=
        "reduced safety: guard for " ++ subject ++ " always accepts (" ++ reason ++ ")", loc
      suggestion :=
        "Use a type built from primitives, literals, shapes and named declarations" }
  | .invalid message =>
    { code := "FLM300", kind := "invalid_program", category := .program
      severity := .error, message, loc }

namespace Diagnostic

/-- The file, or a stand-in for one that is not known. -/
def fileShown (d : Diagnostic) : String := if d.file = "" then "<program>" else d.file

/-- The diagnostic ends the work. -/
def isFatal (d : Diagnostic) : Bool := d.severity = .error

/-- The message with the class it concerns. -/
def messageInClass (d : Diagnostic) : String :=
  if d.className = "" then d.message else "class " ++ d.className ++ ": " ++ d.message

/-- A diagnostic on one line. -/
def compact (d : Diagnostic) : String :=
  d.fileShown ++ ":" ++ d.loc.text ++ ": " ++ d.severity.name ++ ": " ++ d.message ++
    " [" ++ d.code ++ "]"

/-- A diagnostic as a paragraph. -/
def format (d : Diagnostic) : String :=
  d.severity.icon ++ " " ++ d.category.title ++ " [" ++ d.code ++ "] in " ++ d.fileShown ++ "\n" ++
    "Line " ++ toString d.loc.line ++ ", Column " ++ toString d.loc.column ++ ":\n" ++
    "  " ++ d.messageInClass ++ "\n" ++
    if d.suggestion = "" then "" else "\n💡 " ++ d.suggestion ++ "\n"

/-- An entry that is left out if its text is empty. -/
def textEntry (key value : String) : List (String × Json) :=
  if value = "" then [] else [(key, .text value)]

def toJson (d : Diagnostic) : Json :=
  .object
    ([("code", .text d.code), ("type", .text d.kind), ("category", .text d.category.name),
      ("severity", .text d.severity.name), ("message", .text d.message),
      ("location", .object
        [("Line", .integer d.loc.line), ("Column", .integer d.loc.column)])] ++
      textEntry "file" d.file ++ textEntry "class" d.className ++
      textEntry "suggestion" d.suggestion)

def errorCount (ds : List Diagnostic) : Nat := ds.countP (·.severity = .error)

def warningCount (ds : List Diagnostic) : Nat := ds.countP (·.severity = .warning)

/-- The line between two paragraphs. -/
def rule : String := String.ofList (List.replicate 80 '-')

/-- Diagnostics as paragraphs below a count. -/
def formatAll (ds : List Diagnostic) : String :=
  if ds.isEmpty then "no errors"
  else
    "Transform finished with " ++ toString (errorCount ds) ++ " error(s), " ++
      toString (warningCount ds) ++ " warning(s)\n\n" ++
      String.intercalate ("\n" ++ rule ++ "\n\n") (ds.map format)

/-- Diagnostics as a JSON document; without any, the document is null. -/
def listJson (ds : List Diagnostic) : Json :=
  if ds.isEmpty then .null else .list (ds.map toJson)

end Diagnostic

end Componentry
