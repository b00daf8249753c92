import Componentry.Guard.Check
import Componentry.Unit

/-!
# Metadata at runtime

What the registration statements build up: the records of each object in the order of registration,
and named guards. A key is defined once; a second definition is refused and changes nothing.
-/

namespace Componentry

inductive ReflectionError where
  | duplicateKey (key object : String)
  | duplicateGuard (uid : String)
  | unknownGuard (uid : String)
  deriving DecidableEq, Repr

def ReflectionError.message : ReflectionError → String
  | .duplicateKey key object => "duplicate metadata key: " ++ key ++ " on " ++ object
  | .duplicateGuard uid => "duplicate metadata key: guard " ++ uid
  | .unknownGuard uid => "guard not defined: " ++ uid

/-- Registered records by object, and named guards. -/
structure Reflection where
  objects : List (String × Entries)
  guards : List (String × Guard)

namespace Reflection

def empty : Reflection := ⟨[], []⟩

def object? (r : Reflection) (object : String) : Option Entries := r.objects.lookup object

/-- The value under a key of an object. -/
def get? (r : Reflection) (object key : String) : Option MetaValue :=
  (r.object? object).bind fun es => es.get? key

/-- The keys of an object in the order of registration. -/
def keys? (r : Reflection) (object : String) : Option (List String) :=
  (r.object? object).map Entries.keys

/-- The objects in the order of registration. -/
def objectIds (r : Reflection) : List String := r.objects.map (·.1)

/-- Put an entry at the end of an object, which may be new. -/
def append : List (String × Entries) → String → String × MetaValue → List (String × Entries)
  | [], object, e => [(object, [e])]
  | o :: os, object, e =>
    if o.1 == object then (o.1, o.2 ++ [e]) :: os else o :: append os object e

/-- Register a value under a key of an object. -/
def define (r : Reflection) (object key : String) (v : MetaValue) :
    Except ReflectionError Reflection :=
  if (r.get? object key).isSome then .error (.duplicateKey key object)
  else .ok { r with objects := append r.objects object (key, v) }

def guard? (r : Reflection) (uid : String) : Option Guard := r.guards.lookup uid

def addGuard (r : Reflection) (uid : String) (g : Guard) : Except ReflectionError Reflection :=
  if (r.guard? uid).isSome then .error (.duplicateGuard uid)
  else .ok { r with guards := r.guards ++ [(uid, g)] }

/-- The value passes a guard; keys are looked up in the registry. -/
def check (r : Reflection) (g : Guard) (v : Value) : Bool := g.check r.guard? v

/-- The value passes the guard with a name. -/
def validate (r : Reflection) (uid : String) (v : Value) : Except ReflectionError Bool :=
  match r.guard? uid with
  | some g => .ok (r.check g v)
  | none => .error (.unknownGuard uid)

end Reflection

/-- The identifier under which a class is registered: that of its record, else its name. -/
def ClassOutput.objectId (c : ClassOutput) : String :=
  (c.records.findSome? fun r =>
    match r.value with
    | .text uid => if r.key.endsWith ":identifier" then some uid else none
    | _ => none).getD c.decl.name

namespace Reflection

/-- Run a registration, or note why it is refused. -/
def attempt (state : Reflection × List ReflectionError)
    (step : Reflection → Except ReflectionError Reflection) : Reflection × List ReflectionError :=
  match step state.1 with
  | .ok r => (r, state.2)
  | .error e => (state.1, state.2 ++ [e])

/-- Run the registrations of a class: its guards, then its records. -/
def loadClass (state : Reflection × List ReflectionError) (c : ClassOutput) :
    Reflection × List ReflectionError :=
  let state := c.guards.foldl (fun s g => attempt s fun r => r.addGuard g.1 g.2) state
  c.records.foldl (fun s rec => attempt s fun r => r.define c.objectId rec.key rec.value) state

/-- Run the registrations of a program; refusals are collected. -/
def load (r : Reflection) (o : UnitOutput) : Reflection × List ReflectionError :=
  o.classes.foldl loadClass (r, [])

/-- Several refusals, each on a line of its own. -/
def describeErrors (es : List ReflectionError) : String :=
  String.intercalate "\n" (es.map ReflectionError.message)

end Reflection

end Componentry
