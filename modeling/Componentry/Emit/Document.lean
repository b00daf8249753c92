import Componentry.Emit.Source
import Componentry.Unit

/-!
# The output as a document

What becomes of a program, as one JSON document: the classes with their source text, guards and
records, and the warnings.
-/

namespace Componentry

/-- An entry that is left out if its list is empty. -/
def listEntry (key : String) (items : List Json) : List (String × Json) :=
  if items.isEmpty then [] else [(key, .list items)]

/-- A class in the document. -/
def ClassOutput.toJson (c : ClassOutput) : Json :=
  .object
    ([("name", .text c.decl.name), ("file", .text c.file), ("rewritten", .bool c.hooked),
      ("source", .text c.decl.print)] ++
      listEntry "guards" (c.guards.map fun g =>
        .object [("key", .text g.1), ("expr", .text g.2.text)]) ++
      [("metadata", .list (c.records.map fun r =>
        .object [("key", .text r.key), ("value", r.value.toJson)]))])

/-- The version of the document's form. -/
def formatVersion : Int := 1

/-- The document. -/
def UnitOutput.toJson (o : UnitOutput) : Json :=
  .object
    ([("version", .integer formatVersion),
      ("classes", .list (o.classes.map ClassOutput.toJson))] ++
      listEntry "warnings" (o.warnings.map Diagnostic.toJson))

def UnitOutput.document (o : UnitOutput) : String := o.toJson.indented

end Componentry
