import Componentry.Reflection
import Mathlib.Data.List.Induction
import Mathlib.Data.List.Nodup

/-!
# The first registration counts

Callers register values and guards one at a time, in whatever order they come, so what they do is one
list of calls. The registry after them can be read off that list (`Recorded`): an object, and the
named guards, have an entry for the first call to each key, and objects come in the order of their
first calls. A call is refused if and only if there was one for the same seat
(`first_registration_wins`).
-/

namespace Componentry

open List

section Lookup

variable {β : Type} {key : String} {l l' : List (String × β)}

theorem lookup_eq_none_of_notMem (h : key ∉ l.map (·.1)) : l.lookup key = none := by
  rw [lookup_eq_none_iff]
  intro e he
  rw [bne_iff_ne]
  rintro rfl
  exact h (mem_map_of_mem he)

theorem lookup_append_of_notMem (h : key ∉ l.map (·.1)) : (l ++ l').lookup key = l'.lookup key := by
  rw [List.lookup_append, lookup_eq_none_of_notMem h, Option.none_or]

theorem lookup_of_mem {v : β} (hn : (l.map (·.1)).Nodup) (h : (key, v) ∈ l) :
    l.lookup key = some v := by
  obtain ⟨l₁, l₂, rfl⟩ := append_of_mem h
  have hkey : key ∉ l₁.map (·.1) := by
    rw [map_append, nodup_append] at hn
    intro hmem
    exact hn.2.2 key hmem key (by simp) rfl
  rw [lookup_append_of_notMem hkey]
  simp

theorem isSome_lookup : (l.lookup key).isSome = true ↔ key ∈ l.map (·.1) := by
  simp [lookup_isSome_iff]

theorem lookup_cons_eq (e : String × β) (l : List (String × β)) (key : String) :
    (e :: l).lookup key = if key = e.1 then some e.2 else l.lookup key := by
  by_cases h : key = e.1
  · rw [if_pos h, h]
    exact lookup_cons_self
  · rw [if_neg h, lookup_cons, beq_eq_false_iff_ne.2 h]

end Lookup

section Firsts

variable {β : Type} {es : List (String × β)} {e : String × β}

/-- Put an entry at the end, if its key is new. -/
def addNew (l : List (String × β)) (e : String × β) : List (String × β) :=
  if (l.lookup e.1).isSome then l else l ++ [e]

/-- The first entry for each key. -/
def firsts (es : List (String × β)) : List (String × β) := es.foldl addNew []

theorem firsts_concat : firsts (es ++ [e]) = addNew (firsts es) e := by
  unfold firsts
  rw [foldl_append]
  rfl

theorem lookup_firsts (es : List (String × β)) (key : String) :
    (firsts es).lookup key = es.lookup key := by
  induction es using reverseRecOn with
  | nil => rfl
  | append_singleton es e ih =>
    rw [firsts_concat, List.lookup_append, ← ih, addNew]
    split
    · rename_i hsome
      by_cases hkey : key = e.1
      · rw [hkey]
        exact (Option.or_of_isSome hsome).symm
      · rw [lookup_cons_eq, if_neg hkey, lookup_nil, Option.or_none]
    · rw [List.lookup_append]

theorem eraseDups_concat {α : Type} [DecidableEq α] (l : List α) (a : α) :
    (l ++ [a]).eraseDups = if a ∈ l then l.eraseDups else l.eraseDups ++ [a] := by
  rw [eraseDups_append]
  split
  · simp_all [removeAll]
  · simp_all [removeAll, eraseDups_cons]

theorem nodup_eraseDups {α : Type} [DecidableEq α] (l : List α) : l.eraseDups.Nodup := by
  induction l using reverseRecOn with
  | nil => exact nodup_nil
  | append_singleton l a ih =>
    rw [eraseDups_concat]
    split
    · exact ih
    · rename_i ha
      exact nodup_append.2 ⟨ih, nodup_singleton a, by grind [mem_eraseDups]⟩

theorem keys_firsts (es : List (String × β)) :
    (firsts es).map (·.1) = (es.map (·.1)).eraseDups := by
  induction es using reverseRecOn with
  | nil => rfl
  | append_singleton es e ih =>
    rw [firsts_concat, map_append, map_singleton, eraseDups_concat, addNew]
    simp only [isSome_lookup, ih, mem_eraseDups]
    split
    · exact ih
    · rw [map_append, ih]
      rfl

end Firsts

/-- A seat that is filled once: a key of an object, or the name of a guard. -/
inductive Seat where
  | key (object name : String)
  | guard (uid : String)
  deriving DecidableEq

/-- The refusal to fill a seat again. -/
def Seat.duplicate : Seat → ReflectionError
  | .key object name => .duplicateKey name object
  | .guard uid => .duplicateGuard uid

/-- A call on the registry. -/
inductive Registering where
  | metadata (object key : String) (value : MetaValue)
  | guard (uid : String) (g : Guard)

namespace Registering

def run (r : Reflection) : Registering → Except ReflectionError Reflection
  | .metadata object key value => r.define object key value
  | .guard uid g => r.addGuard uid g

def seat : Registering → Seat
  | .metadata object key _ => .key object key
  | .guard uid _ => .guard uid

/-- The object that a call is for. -/
def object? : Registering → Option String
  | .metadata object .. => some object
  | .guard .. => none

/-- The entry that a call brings for an object. -/
def entry? (object : String) : Registering → Option (String × MetaValue)
  | .metadata o key value => if o = object then some (key, value) else none
  | .guard .. => none

/-- The named guard that a call brings. -/
def named? : Registering → Option (String × Guard)
  | .metadata .. => none
  | .guard uid g => some (uid, g)

end Registering

namespace Reflection

/-- Run a call. One that is refused leaves the registry as it is. -/
def perform (r : Reflection) (c : Registering) : Reflection := (c.run r).toOption.getD r

theorem perform_error {r : Reflection} {c : Registering} {e : ReflectionError}
    (h : c.run r = .error e) : r.perform c = r := by
  rw [perform, h]
  rfl

theorem perform_ok {r r' : Reflection} {c : Registering} (h : c.run r = .ok r') :
    r.perform c = r' := by
  rw [perform, h]
  rfl

/-- The registry after calls. -/
def after (calls : List Registering) : Reflection := calls.foldl perform empty

section Append

variable {os : List (String × Entries)} {object : String} {e : String × MetaValue}

theorem ids_append : (append os object e).map (·.1) =
    if object ∈ os.map (·.1) then os.map (·.1) else os.map (·.1) ++ [object] := by
  induction os with
  | nil => rfl
  | cons o os ih =>
    rw [append]
    by_cases hobject : o.1 = object
    · simp [hobject]
    · rw [if_neg (by simpa using hobject), map_cons, ih]
      simp only [map_cons, mem_cons, Ne.symm hobject, false_or]
      split <;> rfl

theorem lookup_append (other : String) : (append os object e).lookup other =
    if other = object then some ((os.lookup object).getD [] ++ [e]) else os.lookup other := by
  induction os with
  | nil => exact lookup_cons_eq _ [] other
  | cons o os ih =>
    rw [append]
    by_cases hobject : o.1 = object
    · simp only [hobject, beq_self_eq_true, if_true, lookup_cons_eq, Option.getD_some]
      split <;> rfl
    · rw [if_neg (by simpa using hobject), lookup_cons_eq, ih, lookup_cons_eq, lookup_cons_eq,
        if_neg (Ne.symm hobject)]
      split
      · rename_i hother
        rw [if_neg (hother ▸ hobject)]
      · rfl

end Append

section Perform

variable (r : Reflection) (object key uid : String) (value : MetaValue) (g : Guard)

/-- What is seen of the registry when a value has been asked for, refused or not. -/
theorem perform_metadata : ∃ r', r.perform (.metadata object key value) = r' ∧
    r'.guards = r.guards ∧
    r'.objectIds = (if object ∈ r.objectIds then r.objectIds else r.objectIds ++ [object]) ∧
    ∀ other, r'.object? other = if other = object
      then some (addNew ((r.object? object).getD []) (key, value)) else r.object? other := by
  by_cases hsome : (r.get? object key).isSome = true
  · obtain ⟨es, hes, hkey⟩ : ∃ es, r.object? object = some es ∧ (es.lookup key).isSome = true := by
      unfold get? at hsome
      cases hes : r.object? object with
      | none => simp [hes] at hsome
      | some es => exact ⟨es, rfl, by simpa [hes, Entries.get?] using hsome⟩
    have hmem : object ∈ r.objectIds := isSome_lookup.1 (by rw [← object?, hes]; rfl)
    refine ⟨r, perform_error (if_pos hsome), rfl, (if_pos hmem).symm, fun other => ?_⟩
    split
    · rename_i hother
      rw [hother, hes, Option.getD_some, addNew, if_pos hkey]
    · rfl
  · have hnew : ¬ (((r.object? object).getD []).lookup key).isSome = true := by
      unfold get? at hsome
      cases hes : r.object? object with
      | none => simp
      | some es => simpa [hes, Entries.get?] using hsome
    refine ⟨_, perform_ok (if_neg hsome), rfl, ids_append, fun other => ?_⟩
    rw [addNew, if_neg hnew]
    exact lookup_append other

theorem perform_guard : ∃ r', r.perform (.guard uid g) = r' ∧
    r'.objects = r.objects ∧ r'.guards = addNew r.guards (uid, g) := by
  by_cases hsome : (r.guards.lookup uid).isSome = true
  · exact ⟨r, perform_error (if_pos hsome), rfl, (if_pos hsome).symm⟩
  · exact ⟨_, perform_ok (if_neg hsome), rfl, (if_neg hsome).symm⟩

end Perform

/-- An object has the first entry for each key, if there is one. -/
def stored (es : Entries) : Option Entries := if es.isEmpty then none else some (firsts es)

theorem stored_concat (es : Entries) (e : String × MetaValue) :
    stored (es ++ [e]) = some (addNew ((stored es).getD []) e) := by
  unfold stored
  rw [if_neg (by simp), firsts_concat]
  cases es <;> rfl

/-- The registry holds what calls bring. -/
structure Recorded (calls : List Registering) (r : Reflection) : Prop where
  guards : r.guards = firsts (calls.filterMap Registering.named?)
  ids : r.objectIds = (calls.filterMap Registering.object?).eraseDups
  object : ∀ object, r.object? object = stored (calls.filterMap (Registering.entry? object))

/-- One more call. -/
theorem Recorded.perform {calls : List Registering} {r : Reflection} (h : Recorded calls r)
    (c : Registering) : Recorded (calls ++ [c]) (r.perform c) := by
  have hcalls : ∀ {α : Type} (f : Registering → Option α),
      (calls ++ [c]).filterMap f = calls.filterMap f ++ (f c).toList := by
    intro α f
    rw [filterMap_append]
    cases hf : f c <;> simp [hf]
  cases c with
  | metadata object key value =>
    obtain ⟨r', hr', hguards, hids, hobject⟩ := perform_metadata r object key value
    rw [hr']
    refine ⟨?_, ?_, fun other => ?_⟩
    · rw [hcalls, hguards, h.guards]
      exact congrArg firsts (append_nil _).symm
    · rw [hcalls, hids, h.ids]
      simp only [mem_eraseDups]
      exact (eraseDups_concat _ object).symm
    · rw [hcalls, hobject, h.object, h.object, Registering.entry?]
      by_cases hother : other = object
      · rw [if_pos hother, if_pos hother.symm, hother]
        exact (stored_concat _ _).symm
      · rw [if_neg hother, if_neg (Ne.symm hother)]
        exact congrArg stored (append_nil _).symm
  | guard uid g =>
    obtain ⟨r', hr', hobjects, hguards⟩ := perform_guard r uid g
    rw [hr']
    refine ⟨?_, ?_, fun other => ?_⟩
    · rw [hcalls, hguards, h.guards]
      exact firsts_concat.symm
    · rw [hcalls, objectIds, hobjects]
      exact h.ids.trans (congrArg _ (append_nil _).symm)
    · rw [hcalls, object?, hobjects]
      exact (h.object other).trans (congrArg stored (append_nil _).symm)

theorem after_concat (calls : List Registering) (c : Registering) :
    after (calls ++ [c]) = (after calls).perform c := by
  unfold after
  rw [foldl_append]
  rfl

theorem recorded_after (calls : List Registering) : Recorded calls (after calls) := by
  induction calls using reverseRecOn with
  | nil => exact ⟨rfl, rfl, fun _ => rfl⟩
  | append_singleton calls c ih =>
    rw [after_concat]
    exact ih.perform c

section Slots

variable {calls : List Registering}

theorem seat_key {object key : String} : Seat.key object key ∈ calls.map Registering.seat ↔
    key ∈ (calls.filterMap (Registering.entry? object)).map (·.1) := by
  rw [map_filterMap, mem_map, mem_filterMap]
  refine exists_congr fun c => and_congr_right fun _ => ?_
  cases c <;> simp [Registering.seat, Registering.entry?]

theorem seat_guard {uid : String} : Seat.guard uid ∈ calls.map Registering.seat ↔
    uid ∈ (calls.filterMap Registering.named?).map (·.1) := by
  rw [map_filterMap, mem_map, mem_filterMap]
  refine exists_congr fun c => and_congr_right fun _ => ?_
  cases c <;> simp [Registering.seat, Registering.named?]

theorem get_after (object key : String) : (after calls).get? object key =
    (calls.filterMap (Registering.entry? object)).lookup key := by
  rw [get?, (recorded_after calls).object, stored, ← lookup_firsts]
  cases calls.filterMap (Registering.entry? object) <;> rfl

theorem keys_after (object : String) : (after calls).keys? object =
    if object ∈ (after calls).objectIds
    then some ((calls.filterMap (Registering.entry? object)).map (·.1)).eraseDups else none := by
  have hmem : ((after calls).objects.lookup object).isSome = true ↔
      object ∈ (after calls).objects.map (·.1) := isSome_lookup
  have hobject := (recorded_after calls).object object
  unfold object? at hobject
  unfold keys? objectIds object?
  rw [← keys_firsts]
  simp only [← hmem, hobject, stored]
  cases calls.filterMap (Registering.entry? object) <;> rfl

theorem guard_after (uid : String) : (after calls).guard? uid =
    (calls.filterMap Registering.named?).lookup uid := by
  rw [guard?, (recorded_after calls).guards, lookup_firsts]

theorem run_after {c : Registering} {e : ReflectionError} : c.run (after calls) = .error e ↔
    c.seat ∈ calls.map Registering.seat ∧ e = c.seat.duplicate := by
  cases c with
  | metadata object key value =>
    show (after calls).define object key value = _ ↔ Seat.key object key ∈ _ ∧ _
    rw [seat_key, ← isSome_lookup, ← get_after, define]
    cases ((after calls).get? object key).isSome with
    | false => simp
    | true => simp [Registering.seat, Seat.duplicate, eq_comm]
  | guard uid g =>
    show (after calls).addGuard uid g = _ ↔ Seat.guard uid ∈ _ ∧ _
    rw [seat_guard, ← isSome_lookup, ← guard_after, addGuard]
    cases ((after calls).guard? uid).isSome with
    | false => simp
    | true => simp [Registering.seat, Seat.duplicate, eq_comm]

end Slots

/-- **The first registration counts.** After any calls, of any number of callers in any order:

* the next call is refused if and only if one of them was for the same key of the same object or for
  the same name of a guard, and then the registry stays as it is;
* a key of an object has the value of the first call for it, and a name of a guard its first guard;
* the objects, and the keys of each object, are listed in the order of their first calls, none twice;
* what there is for an object follows from the calls for that object alone. -/
theorem first_registration_wins (calls : List Registering) : (∀ c : Registering,
      (∀ e, c.run (after calls) = .error e ↔
        c.seat ∈ calls.map Registering.seat ∧ e = c.seat.duplicate) ∧
      (c.seat ∈ calls.map Registering.seat → after (calls ++ [c]) = after calls)) ∧
    (∀ object key, (after calls).get? object key =
      (calls.filterMap (Registering.entry? object)).lookup key) ∧
    (∀ uid, (after calls).guard? uid = (calls.filterMap Registering.named?).lookup uid) ∧
    (after calls).objectIds = (calls.filterMap Registering.object?).eraseDups ∧
    (after calls).objectIds.Nodup ∧
    (∀ object, (after calls).keys? object = if object ∈ (after calls).objectIds
      then some ((calls.filterMap (Registering.entry? object)).map (·.1)).eraseDups else none) ∧
    (∀ object keys, (after calls).keys? object = some keys → keys.Nodup) ∧
    ∀ object calls', calls.filterMap (Registering.entry? object) =
        calls'.filterMap (Registering.entry? object) →
      (after calls).object? object = (after calls').object? object := by
  have hrecorded := recorded_after calls
  refine ⟨fun c => ⟨fun e => run_after, fun hslot => ?_⟩, get_after, guard_after, hrecorded.ids,
    ?_, keys_after, ?_, ?_⟩
  · rw [after_concat]
    exact perform_error (run_after.2 ⟨hslot, rfl⟩)
  · rw [hrecorded.ids]
    exact nodup_eraseDups _
  · intro object keys hkeys
    rw [keys_after] at hkeys
    obtain ⟨-, hkeys⟩ := Option.ite_none_right_eq_some.1 hkeys
    cases hkeys
    exact nodup_eraseDups _
  · intro object calls' hcalls
    rw [hrecorded.object, (recorded_after calls').object, hcalls]

end Reflection

end Componentry
