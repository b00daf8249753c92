import Componentry.Command.Session
import Componentry.Console.Table

/-!
# Looking at results

Without a class or a guard all classes and guards are listed. A class is shown with its records and
guards; a guard is tried on a value.
-/

namespace Componentry

/-- The list of all classes and guards. -/
def listingText (colors : Bool) (o : UnitOutput) : String :=
  headerText colors "Classes" ++
    tableText colors (o.classes.map fun c =>
      (c.decl.name, c.file ++ if c.hooked then " (rewritten)" else "")) ++
    if o.arena.keys.isEmpty then ""
    else "\n" ++ headerText colors "Guards" ++
      String.join (o.arena.keys.map fun k => "  " ++ k ++ "\n")

/-- A table below a title; nothing if the table is empty. -/
def titledTable (colors : Bool) (title : String) (rows : List (String × String)) : String :=
  if rows.isEmpty then "" else "\n" ++ headerText colors title ++ tableText colors rows

/-- A class with its records and guards. -/
def classText (colors : Bool) (c : ClassOutput) : String :=
  headerText colors c.decl.name ++
    tableText colors
      [("file", c.file), ("object", c.objectId),
       ("rewritten", if c.hooked then "true" else "false")] ++
    titledTable colors "Metadata" (c.records.map fun r => (r.key, r.value.print)) ++
    titledTable colors "Guards" (c.guards.map fun g => (g.1, g.2.text))

/-- Texts in order. -/
def sortedNames (names : List String) : List String := names.mergeSort fun a b => !(b < a)

section

variable {m : Type → Type} [Monad m] [Host m]

namespace CommandSession

def printClass (s : CommandSession) (o : UnitOutput) (program name : String) : Outcome m Unit := do
  match o.classes.find? (·.decl.name == name) with
  | some c => Host.say (m := m) .result (classText s.colors c)
  | none =>
    let names := sortedNames (o.classes.map (·.decl.name))
    complain s.colors (.classNotFound name program (suggest name names))

/-- Try a guard on a value, given as a JSON document. -/
def tryGuard (s : CommandSession) (o : UnitOutput) (key raw : String) : Outcome m Unit := do
  let value ← match Json.read raw with
    | .ok j => pure (Value.ofJson j)
    | .error e => throw (.badValue e)
  let r ← match Reflection.empty.load o with
    | (r, []) => pure r
    | (_, es) => throw (.refused es)
  match r.validate key value with
  | .error e =>
    complain s.colors
      { level := .error, context := "guard not found", problem := e.message
        suggestions := suggest key o.arena.keys }
  | .ok false =>
    complain s.colors
      { level := .error, context := "guard failed", problem := key ++ " rejects " ++ raw }
  | .ok true =>
    Host.say (m := m) .result (successText s.colors (key ++ " accepts " ++ raw))
    let reasons := ((r.guard? key).map Guard.reasons).getD []
    if !reasons.isEmpty then
      Host.say (m := m) .complaint
        ((Message.warning ("Parts of the value were not checked: " ++
          String.intercalate "; " reasons)).text s.colors)

/-- Look at what becomes of the program in a file. -/
def inspect (s : CommandSession) (a : Arguments) (path : String) : Outcome m Unit := do
  let o ← s.transform path
  let guardKey := (a.value? "guard").getD ""
  let className := (a.value? "class").getD ""
  if guardKey ≠ "" then s.tryGuard o guardKey ((a.value? "value").getD "null")
  else if className ≠ "" then s.printClass o path className
  else Host.say (m := m) .result (listingText s.colors o)

end CommandSession

def inspectFlags : List Flag :=
  [{ name := "class", kind := .text }, { name := "guard", kind := .text },
   { name := "value", kind := .text }]

end

end Componentry
