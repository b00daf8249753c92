import Componentry.Guard.Value

/-!
# Testing values

`check resolve g v` tells whether the value `v` passes the guard `g`, where `resolve` says what keys
stand for. Keys are followed at most `maxDepth` times inside one another; beyond that nothing
passes, so that keys that only stand for each other are passed by no value.
-/

namespace Componentry

mutual

/-- The value passes the guard; `follow` tests a key. -/
def Guard.accepts (follow : String → Value → Bool) : Guard → Value → Bool
  | .always _, _ => true
  | .kind tag, v => v.tag == tag
  | .literal w, v => v.equals w
  | .oneOf ws, v => ws.any v.equals
  | .all items, v => Guard.acceptsAll follow items v
  | .any items, v => Guard.acceptsAny follow items v
  | .shape fields, .record entries => Guard.acceptsFields follow entries fields
  | .shape _, _ => false
  | .arrayOf g, .list vs => vs.all (Guard.accepts follow g)
  | .arrayOf _, _ => false
  | .tuple gs, .list vs => Guard.acceptsEach follow gs vs
  | .tuple _, _ => false
  | .instanceOf uid, .inst classes => classes.contains uid
  | .instanceOf _, _ => false
  | .ref key, v => follow key v

/-- The value passes every guard. -/
def Guard.acceptsAll (follow : String → Value → Bool) : List Guard → Value → Bool
  | [], _ => true
  | g :: gs, v => g.accepts follow v && Guard.acceptsAll follow gs v

/-- The value passes one of the guards. -/
def Guard.acceptsAny (follow : String → Value → Bool) : List Guard → Value → Bool
  | [], _ => false
  | g :: gs, v => g.accepts follow v || Guard.acceptsAny follow gs v

/-- As many values as guards, and each passes its own. -/
def Guard.acceptsEach (follow : String → Value → Bool) : List Guard → List Value → Bool
  | [], [] => true
  | g :: gs, v :: vs => g.accepts follow v && Guard.acceptsEach follow gs vs
  | _, _ => false

/-- The fields of an object pass their guards. A field that is absent passes if it is optional; else
it is tested as an absent value. -/
def Guard.acceptsFields (follow : String → Value → Bool) (entries : List (String × Value)) :
    List GuardField → Bool
  | [] => true
  | .mk name optional g :: fs =>
    let v := (entries.lookup name).getD .undefined
    ((optional && v.isUndefined) || g.accepts follow v) && Guard.acceptsFields follow entries fs

end

/-- The keys that may be followed inside one another. -/
def Guard.maxDepth : Nat := 256

/-- The value passes the guard with at most `n` keys followed inside one another. -/
def Guard.checkWithin (resolve : String → Option Guard) : Nat → Guard → Value → Bool
  | 0 => Guard.accepts fun _ _ => false
  | n + 1 => Guard.accepts fun key v =>
    match resolve key with
    | some g => Guard.checkWithin resolve n g v
    | none => false

/-- The value passes the guard. -/
def Guard.check (resolve : String → Option Guard) (g : Guard) (v : Value) : Bool :=
  Guard.checkWithin resolve Guard.maxDepth g v

end Componentry
