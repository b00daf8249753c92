import Componentry.Diagnostic
import Componentry.Digest.Uuid
import Componentry.Program.Model
import Componentry.Text.Path

/-!
# Identifiers of declarations

A registry gives each declaration an identifier on first use and keeps it. The identifier is made
from the file and the name of the declaration; if another declaration has it already, a number is
put behind it, counting from two.
-/

namespace Componentry

/-- How an identifier is written: as a path, or as a name-based unique identifier of that path. -/
inductive IdStyle where
  | path | hashed
  deriving DecidableEq, Repr, Inhabited

namespace IdStyle

def name : IdStyle → String
  | .path => "path"
  | .hashed => "hashed"

/-- The style with a name; without a name it is the path. -/
def ofName? (s : String) : Option IdStyle :=
  if s = "" then some .path else [path, hashed].find? (·.name == s)

/-- Why a name is no style. -/
def unknownMessage (s : String) : String :=
  "unknown identity style " ++ Text.quote s ++ " (expected path or hashed)"

/-- The written form of a path identifier. -/
def render : IdStyle → String → String
  | .path, id => id
  | .hashed, id => Digest.Uuid.ofName id

end IdStyle

/-- The file of a declaration without its ending, and its name. -/
def Declaration.pathId (d : Declaration) : String :=
  let file := Path.trimSuffix d.file ".d.ts"
  Path.trimSuffix file (Path.ext file) ++ "@" ++ d.name

/-- The identifiers given so far, by the number of the declaration. -/
structure Registry where
  style : IdStyle
  assigned : List (Nat × String)

namespace Registry

def empty (style : IdStyle) : Registry := ⟨style, []⟩

def size (r : Registry) : Nat := r.assigned.length

/-- The identifier is given to some declaration. -/
def isTaken (r : Registry) (uid : String) : Bool := r.assigned.any (·.2 == uid)

/-- The first of `base#n`, `base#(n+1)`, … that is not taken, among the next `fuel`. -/
def firstFree (r : Registry) (base : String) : Nat → Nat → String
  | 0, n => base ++ "#" ++ toString n
  | fuel + 1, n =>
    let uid := base ++ "#" ++ toString n
    if r.isTaken uid then r.firstFree base fuel (n + 1) else uid

/-- An identifier made from `base` that is not taken. -/
def freeId (r : Registry) (base : String) : String :=
  if r.isTaken base then r.firstFree base r.size 2 else base

/-- The identifier of a declaration, and the registry after it is given. -/
def uid (r : Registry) (d : Declaration) : Except Diagnostic (String × Registry) :=
  match r.assigned.lookup d.id with
  | some uid => .ok (uid, r)
  | none =>
    if d.name = "" then
      .error { (Cause.identity d.kind.word).diagnostic d.loc with file := d.file }
    else
      let uid := r.freeId (r.style.render d.pathId)
      .ok (uid, { r with assigned := r.assigned ++ [(d.id, uid)] })

/-- The identifier of something that may be no declaration. -/
def uid? (r : Registry) : Option Declaration → Except Diagnostic (String × Registry)
  | some d => r.uid d
  | none => .error ((Cause.identity "<nil>").diagnostic Location.nowhere)

end Registry

end Componentry
