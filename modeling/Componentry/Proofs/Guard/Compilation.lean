import Componentry.Proofs.Identity
import Componentry.Proofs.Outcome

/-!
# What compiling a type does

Compiling reads the identifiers of declarations, defines named guards and notes warnings. This
module says once what a successful step can do to the state.

* `Ty.induct` is the induction that compiling follows: a type is tested as it stands (`Ty.Basic`),
  put together from others (`Ty.Composed`), a reference, or unknown. The guard of a composed type is
  put together from guards that are compiled one after another (`yields_composed`).
* `Compiles` is a run of the compiler without the monad and the bound on recursion. A reference ends
  in one of four ways: a class, a name that is known or under way, a declaration without a body, and
  a body that is compiled and defined. What a successful run does is proved by induction on it.
* `Compiler.Grows` is what every successful step keeps: identifiers and named guards are only added,
  no name under way is defined, and the new named guards refer to names that are defined or under
  way.
* `typeGuard_grows` is the law for a whole type: afterwards nothing is under way, so every name
  that the result or a new guard refers to is defined.
-/

namespace Componentry

open List Compile

variable {ts : List Ty} {c c' : Compiler} {key : String} {rs : List Guard} {underWay : List String}
  {t : Ty} {r : Guard} {a : Arena} {g : Graph} {step : Ty → Compiler → Guard → Compiler → Prop}
  {d : Declaration} {build : List Guard → Guard}

/-! ## Names in guards -/

mutual

/-- The names that a guard refers to. -/
def Guard.refs : Guard → List String
  | .ref key => [key]
  | .all items | .any items | .tuple items => Guard.refsAll items
  | .shape fields => Guard.refsFields fields
  | .arrayOf g => g.refs
  | .kind _ | .literal _ | .oneOf _ | .instanceOf _ | .always _ => []

def Guard.refsAll : List Guard → List String
  | [] => []
  | g :: gs => g.refs ++ Guard.refsAll gs

def Guard.refsFields : List GuardField → List String
  | [] => []
  | .mk _ _ g :: fs => g.refs ++ Guard.refsFields fs

end

theorem Guard.mem_refsAll {gs : List Guard} : key ∈ Guard.refsAll gs ↔ ∃ g ∈ gs, key ∈ g.refs := by
  induction gs with
  | nil => simp [Guard.refsAll]
  | cons g gs ih => simp [Guard.refsAll, ih]

/-! ## Named guards -/

namespace Arena

theorem lookup_eq_none : a.lookup key = none ↔ key ∉ a.keys := by
  unfold lookup keys
  rw [lookup_eq_none_iff]
  constructor
  · intro h hmem
    obtain ⟨e, he, rfl⟩ := mem_map.1 hmem
    simpa using h e he
  · intro h e he
    rw [bne_iff_ne]
    rintro rfl
    exact h (mem_map_of_mem he)

theorem lookup_isSome : (a.lookup key).isSome = true ↔ key ∈ a.keys := by
  rw [← not_iff_not, ← lookup_eq_none]
  cases a.lookup key <;> simp

theorem mem_of_lookup {g : Guard} (h : a.lookup key = some g) : (key, g) ∈ a.entries := by
  obtain ⟨l₁, l₂, hl, -⟩ := lookup_eq_some_iff.1 h
  rw [hl]
  simp

/-- A name that is not defined yet is defined at the end. -/
theorem entries_define (h : key ∉ a.keys) (g : Guard) :
    (a.define key g).entries = a.entries ++ [(key, g)] := by
  have hc : a.keys.contains key = false := by simpa using h
  unfold define
  rw [hc]
  rfl

theorem keys_define (h : key ∉ a.keys) (g : Guard) : (a.define key g).keys = a.keys ++ [key] := by
  unfold keys
  rw [entries_define h]
  simp

end Arena

/-! ## Steps of the compiler -/

namespace Compile

theorem yields_uid {u : String} (h : Yields (uid d) c u c') :
    ∃ ids, c.ids.uid d = .ok (u, ids) ∧ c' = { c with ids } := by
  obtain ⟨_, _, hget, h⟩ := yields_bind.1 h
  obtain ⟨rfl, rfl⟩ := yields_get.1 hget
  cases hu : c.ids.uid d with
  | error e =>
    simp only [hu] at h
    exact absurd h not_yields_throw
  | ok p =>
    simp only [hu, yields_bind, yields_set, yields_pure] at h
    obtain ⟨_, _, rfl, rfl, rfl⟩ := h
    exact ⟨p.2, rfl, rfl⟩

theorem yields_warn {type reason : String} {g : Guard} : Yields (warn type reason) c g c' ↔
      g = .always reason ∧ c' = { c with warnings := c.warnings ++ [⟨type, reason⟩] } := by
  simp only [warn, yields_bind, yields_modify, yields_pure]
  grind

/-- A union counts as one of literals if all members are literals. -/
theorem mem_literals {vs : List Literal} (h : literals? ts = some vs) :
    (∀ t ∈ ts, ∃ i, ∃ v ∈ vs, t = .literal i v) ∧ ∀ v ∈ vs, ∃ i, .literal i v ∈ ts := by
  induction ts generalizing vs with
  | nil =>
    cases h
    simp
  | cons t ts ih =>
    cases t with
    | literal i w =>
      obtain ⟨ws, hws, rfl⟩ := Option.map_eq_some_iff.1 h
      obtain ⟨hmembers, hvalues⟩ := ih hws
      exact ⟨by grind, by grind⟩
    | _ => cases h

theorem not_yields_exhausted {α : Type} {a : α} : ¬ Yields (exhausted : Compile α) c a c' := by
  intro h
  cases h

end Compile

/-! ## Types and their guards -/

/-- A type that is tested as it stands. -/
inductive Ty.Basic : Ty → Prop
  | primitive {i : NodeId} {name : String} : Basic (.primitive i name)
  | literal {i : NodeId} {v : Literal} : Basic (.literal i v)
  | literals {i : NodeId} {members : List Ty} {vs : List Literal}
      (h : literals? members = some vs) : Basic (.union i members)

/-- The type is put together from the types of a list, and its guard from theirs. -/
inductive Ty.Composed : Ty → List Ty → (List Guard → Guard) → Prop
  | union {i : NodeId} {members : List Ty} (h : literals? members = none) :
      Composed (.union i members) members .any
  | intersection {i : NodeId} {members : List Ty} :
      Composed (.intersection i members) members .all
  | tuple {i : NodeId} {elements : List Ty} : Composed (.tuple i elements) elements .tuple
  | array {i : NodeId} {e : Ty} : Composed (.array i e) [e] fun gs => .arrayOf (gs.headD default)
  | object {i : NodeId} {fields : List TyField} :
      Composed (.object i fields) (fields.map TyField.type) fun gs =>
        .shape (List.zipWith (fun f g => .mk f.name f.optional g) fields gs)

theorem TyField.sizeOf_type_lt (f : TyField) : sizeOf f.type < sizeOf f := by
  cases f with
  | mk name t optional =>
    simp only [TyField.type, TyField.mk.sizeOf_spec]
    omega

theorem Ty.Composed.sizeOf_lt {m : Ty} (h : t.Composed ts build) (hm : m ∈ ts) :
    sizeOf m < sizeOf t := by
  cases h with
  | array => simp_all
  | object =>
    obtain ⟨f, hf, rfl⟩ := mem_map.1 hm
    have := sizeOf_lt_of_mem hf
    have := f.sizeOf_type_lt
    simp only [Ty.object.sizeOf_spec]
    omega
  | _ =>
    have := sizeOf_lt_of_mem hm
    simp only [Ty.union.sizeOf_spec, Ty.intersection.sizeOf_spec, Ty.tuple.sizeOf_spec]
    omega

/-- Induction over types, as compiling goes through them. -/
@[elab_as_elim]
theorem Ty.induct {P : Ty → Prop} (basic : ∀ {t : Ty}, t.Basic → P t)
    (composed : ∀ {t : Ty} {ts : List Ty} {build : List Guard → Guard}, t.Composed ts build →
      (∀ m ∈ ts, P m) → P t)
    (reference : ∀ i d args bases, P (.reference i d args bases))
    (unknown : ∀ {t : Ty}, t.isUnknown = true → P t) (t : Ty) : P t := by
  have hparts : ∀ {ts : List Ty} {build : List Guard → Guard}, t.Composed ts build → P t :=
    fun h => composed h fun m hm => Ty.induct basic composed reference unknown m
  match t with
  | .primitive _ _ => exact basic .primitive
  | .literal _ _ => exact basic .literal
  | .union _ members =>
    cases h : literals? members with
    | some vs => exact basic (.literals h)
    | none => exact hparts (.union h)
  | .intersection _ _ => exact hparts .intersection
  | .tuple _ _ => exact hparts .tuple
  | .array _ _ => exact hparts .array
  | .object _ _ => exact hparts .object
  | .reference i d args bases => exact reference i d args bases
  | .deferred _ _ | .unrepresentable _ _ => exact unknown rfl
termination_by sizeOf t
decreasing_by exact h.sizeOf_lt hm

/-- The guard of a composed type refers to what the guards of its parts refer to. -/
theorem Ty.Composed.mem_refs (h : t.Composed ts build) {gs : List Guard}
    (hlength : gs.length = ts.length) : key ∈ (build gs).refs ↔ ∃ g ∈ gs, key ∈ g.refs := by
  cases h with
  | array =>
    obtain ⟨g, rfl⟩ := length_eq_one_iff.1 hlength
    simp [Guard.refs]
  | @object i fields =>
    rw [length_map] at hlength
    rw [Guard.refs]
    induction fields generalizing gs with
    | nil => simp_all [Guard.refsFields]
    | cons f fields ih =>
      cases gs with
      | nil => cases hlength
      | cons g gs => simp [Guard.refsFields, ih (Nat.succ.inj hlength)]
  | _ => exact Guard.mem_refsAll

/-! ## Guards by name -/

mutual

/-- The guard of a type in which every reference with a body stands by its name. -/
def Ty.byName (g : Graph) (uidOf : Declaration → String) : Ty → Guard
  | .primitive _ name =>
    if name = "any" || name = "unknown" then .always ""
    else if name = "never" then .any []
    else .kind name
  | .literal _ v => .literal v
  | .union _ members =>
    match literals? members with
    | some vs => .oneOf vs
    | none => .any (Ty.byNameAll g uidOf members)
  | .intersection _ members => .all (Ty.byNameAll g uidOf members)
  | .tuple _ elements => .tuple (Ty.byNameAll g uidOf elements)
  | .array _ e => .arrayOf (e.byName g uidOf)
  | .object _ fields => .shape (Ty.byNameFields g uidOf fields)
  | .reference id d args _ =>
    if d.kind = .classDecl then .instanceOf (uidOf d)
    else if (g.target? id).isSome then .ref (applicationKey (uidOf d) args)
    else .always (d.name ++ " has no body")
  | .deferred i source => .always (Ty.deferred i source).text
  | .unrepresentable _ reason => .always reason

def Ty.byNameAll (g : Graph) (uidOf : Declaration → String) : List Ty → List Guard
  | [] => []
  | t :: ts => t.byName g uidOf :: Ty.byNameAll g uidOf ts

def Ty.byNameFields (g : Graph) (uidOf : Declaration → String) : List TyField → List GuardField
  | [] => []
  | .mk name t optional :: fs =>
    .mk name optional (t.byName g uidOf) :: Ty.byNameFields g uidOf fs

end

section

variable {g : Graph} {uidOf : Declaration → String} {t : Ty}

/-- A basic guard tests no other guard, and has no reason to let a value pass. -/
theorem Ty.Basic.byName_bare (h : t.Basic) :
    (t.byName g uidOf).refs = [] ∧ (t.byName g uidOf).reasons = [] := by
  cases h with
  | primitive =>
    rw [Ty.byName]
    split
    · exact ⟨rfl, rfl⟩
    · split <;> exact ⟨rfl, rfl⟩
  | literal => exact ⟨rfl, rfl⟩
  | literals h => simp only [Ty.byName, h, Guard.refs, Guard.reasons, and_self]

theorem Ty.Composed.byName (h : t.Composed ts build) :
    t.byName g uidOf = build (ts.map (Ty.byName g uidOf)) := by
  have hall : ∀ ts : List Ty, Ty.byNameAll g uidOf ts = ts.map (Ty.byName g uidOf) := by
    intro ts
    induction ts with
    | nil => rfl
    | cons t ts ih => rw [Ty.byNameAll, map_cons, ih]
  cases h with
  | union h => simp only [Ty.byName, h, hall]
  | array => simp [Ty.byName]
  | @object i fields =>
    rw [Ty.byName]
    congr 1
    induction fields with
    | nil => rfl
    | cons f fields ih =>
      cases f with
      | mk name t optional => simp [Ty.byNameFields, ih, TyField.name, TyField.optional, TyField.type]
  | _ => simp only [Ty.byName, hall]

end

namespace Compile

/-- Guards are compiled for several types, one after another. -/
inductive InTurn (step : Ty → Compiler → Guard → Compiler → Prop) :
    List Ty → Compiler → List Guard → Compiler → Prop
  | nil {c : Compiler} : InTurn step [] c [] c
  | cons {t : Ty} {ts : List Ty} {c c₁ c' : Compiler} {r : Guard} {rs : List Guard}
      (h : step t c r c₁) (hrest : InTurn step ts c₁ rs c') : InTurn step (t :: ts) c (r :: rs) c'

section

variable {g : Graph} {follow : CompileAt} {underWay : List String} {c c' : Compiler}

theorem yields_guards : Yields (guards g follow underWay ts) c rs c' ↔
      InTurn (fun t => Yields (guard g follow underWay t)) ts c rs c' := by
  induction ts generalizing c c' rs with
  | nil =>
    rw [guards, yields_pure]
    constructor
    · rintro ⟨rfl, rfl⟩
      exact .nil
    · rintro ⟨⟩
      exact ⟨rfl, rfl⟩
  | cons t ts ih =>
    simp only [guards, yields_bind, yields_pure, ih]
    constructor
    · rintro ⟨first, c₁, hfirst, rest, c₂, hrest, rfl, rfl⟩
      exact .cons hfirst hrest
    · rintro (_ | ⟨hfirst, hrest⟩)
      exact ⟨_, _, hfirst, _, _, hrest, rfl, rfl⟩

theorem yields_fieldGuards {fs : List TyField} {ks : List GuardField} :
    Yields (fieldGuards g follow underWay fs) c ks c' ↔
      ∃ rs, InTurn (fun t => Yields (guard g follow underWay t)) (fs.map TyField.type) c rs c' ∧
        ks = zipWith (fun f r => .mk f.name f.optional r) fs rs := by
  induction fs generalizing c c' ks with
  | nil =>
    rw [fieldGuards, yields_pure]
    constructor
    · rintro ⟨rfl, rfl⟩
      exact ⟨[], .nil, rfl⟩
    · rintro ⟨_, ⟨⟩, rfl⟩
      exact ⟨rfl, rfl⟩
  | cons f fs ih =>
    obtain ⟨name, t, optional⟩ := f
    simp only [fieldGuards, yields_bind, yields_pure, ih]
    constructor
    · rintro ⟨first, c₁, hfirst, rest, c₂, ⟨rs, hrest, rfl⟩, rfl, rfl⟩
      exact ⟨first :: rs, .cons hfirst hrest, rfl⟩
    · rintro ⟨_, _ | ⟨hfirst, hrest⟩, rfl⟩
      exact ⟨_, _, hfirst, _, _, ⟨_, hrest, rfl⟩, rfl, rfl⟩

theorem yields_basic (h : t.Basic) (uidOf : Declaration → String) :
    Yields (guard g follow underWay t) c r c' ↔ t.byName g uidOf = r ∧ c = c' := by
  cases h with
  | primitive =>
    rw [guard, Ty.byName]
    split
    · exact yields_pure
    · split <;> exact yields_pure
  | literal =>
    rw [guard, Ty.byName]
    exact yields_pure
  | literals h =>
    simp only [guard, Ty.byName, h]
    exact yields_pure

theorem yields_unknown (h : t.isUnknown = true) :
    ∃ w : GuardWarning, (∀ uidOf, t.byName g uidOf = .always w.reason) ∧
      ∀ {c c' : Compiler} {r : Guard}, Yields (guard g follow underWay t) c r c' ↔
        r = .always w.reason ∧ c' = { c with warnings := c.warnings ++ [w] } := by
  cases t with
  | deferred i source =>
    rw [guard]
    exact ⟨⟨_, (Ty.deferred i source).text⟩, fun _ => rfl, yields_warn⟩
  | unrepresentable i reason =>
    rw [guard]
    exact ⟨⟨_, reason⟩, fun _ => rfl, yields_warn⟩
  | _ => cases h

/-- The guard of a composed type: guards for its parts are compiled in turn and put together. -/
theorem yields_composed (h : t.Composed ts build) : Yields (guard g follow underWay t) c r c' ↔
      ∃ rs, InTurn (fun t => Yields (guard g follow underWay t)) ts c rs c' ∧ r = build rs := by
  cases h with
  | union h =>
    simp only [guard, h, yields_bind, yields_pure, yields_guards]
    grind
  | intersection | tuple =>
    simp only [guard, yields_bind, yields_pure, yields_guards]
    grind
  | array =>
    simp only [guard, yields_bind, yields_pure]
    constructor
    · rintro ⟨item, c₁, hitem, rfl, rfl⟩
      exact ⟨[item], .cons hitem .nil, rfl⟩
    · rintro ⟨_, _ | ⟨hitem, ⟨⟩⟩, rfl⟩
      exact ⟨_, _, hitem, rfl, rfl⟩
  | object =>
    simp only [guard, yields_bind, yields_pure, yields_fieldGuards]
    grind

end

end Compile

/-! ## Runs of the compiler -/

/-- The types are compiled one after another, while the guards under some names are under way.
`names` are those whose bodies are compiled, in the order in which they are done. -/
inductive Compiles (g : Graph) :
    List String → List Ty → Compiler → List Guard → List String → Compiler → Prop
  | nil {underWay : List String} {c : Compiler} : Compiles g underWay [] c [] [] c
  | append {underWay names names' : List String} {ts ts' : List Ty} {c c₁ c' : Compiler}
      {rs rs' : List Guard} (h : Compiles g underWay ts c rs names c₁)
      (hrest : Compiles g underWay ts' c₁ rs' names' c') :
      Compiles g underWay (ts ++ ts') c (rs ++ rs') (names ++ names') c'
  | basic {underWay : List String} {t : Ty} {c : Compiler} {r : Guard} (ht : t.Basic)
      (hr : ∀ uidOf, t.byName g uidOf = r) : Compiles g underWay [t] c [r] [] c
  | composed {underWay names : List String} {t : Ty} {ts : List Ty} {build : List Guard → Guard}
      {c c' : Compiler} {rs : List Guard} (ht : t.Composed ts build)
      (h : Compiles g underWay ts c rs names c') : Compiles g underWay [t] c [build rs] names c'
  /-- The type is not tested. -/
  | unknown {underWay : List String} {t : Ty} {c : Compiler} {w : GuardWarning}
      (ht : t.isUnknown = true)
      (hr : ∀ uidOf, t.byName g uidOf = .always w.reason) :
      Compiles g underWay [t] c [.always w.reason] [] { c with warnings := c.warnings ++ [w] }
  /-- A class tests for instances. -/
  | ofClass {underWay : List String} {i : NodeId} {d : Declaration} {args : List Ty}
      {bases : List Declaration} {c : Compiler} {u : String} {ids : Registry}
      (hu : c.ids.uid d = .ok (u, ids)) (hk : d.kind = .classDecl) :
      Compiles g underWay [.reference i d args bases] c [.instanceOf u] [] { c with ids }
  /-- The name is defined, or its guard is being compiled. -/
  | known {underWay : List String} {i : NodeId} {d : Declaration} {args : List Ty}
      {bases : List Declaration} {c : Compiler} {u : String} {ids : Registry}
      (hu : c.ids.uid d = .ok (u, ids)) (hk : d.kind ≠ .classDecl)
      (hkey : applicationKey u args ∈ c.arena.keys ∨
        applicationKey u args ∈ underWay) :
      Compiles g underWay [.reference i d args bases] c [.ref (applicationKey u args)] []
        { c with ids }
  /-- There is nothing to compile. -/
  | bodyless {underWay : List String} {i : NodeId} {d : Declaration} {args : List Ty}
      {bases : List Declaration} {c : Compiler} {u : String} {ids : Registry} {w : GuardWarning}
      (hu : c.ids.uid d = .ok (u, ids)) (hk : d.kind ≠ .classDecl) (ht : g.target? i = none)
      (hw : w.reason = d.name ++ " has no body") :
      Compiles g underWay [.reference i d args bases] c [.always w.reason] []
        { c with ids, warnings := c.warnings ++ [w] }
  /-- The body is compiled while the name is under way, and then defined. -/
  | body {underWay names : List String} {i : NodeId} {d : Declaration} {args : List Ty}
      {bases : List Declaration} {c c₁ : Compiler} {u : String} {ids : Registry} {t : Ty} {r : Guard}
      (hu : c.ids.uid d = .ok (u, ids)) (hk : d.kind ≠ .classDecl)
      (hkey : applicationKey u args ∉ c.arena.keys)
      (hway : applicationKey u args ∉ underWay) (ht : g.target? i = some t)
      (h : Compiles g (applicationKey u args :: underWay) [t] { c with ids } [r] names c₁) :
      Compiles g underWay [.reference i d args bases] c [.ref (applicationKey u args)]
        (names ++ [applicationKey u args])
        { c₁ with arena := c₁.arena.define (applicationKey u args) r }

theorem Compiles.length_eq {names : List String} (h : Compiles g underWay ts c rs names c') :
    rs.length = ts.length := by
  induction h with
  | append _ _ ih ih' => rw [length_append, length_append, ih, ih']
  | _ => rfl

namespace Compile

theorem InTurn.compiles (h : InTurn step ts c rs c') (hstep : ∀ t ∈ ts, ∀ {c c' r},
    step t c r c' → ∃ names, Compiles g underWay [t] c [r] names c') :
    ∃ names, Compiles g underWay ts c rs names c' := by
  induction h with
  | nil => exact ⟨[], .nil⟩
  | cons h _ ih =>
    rw [forall_mem_cons] at hstep
    obtain ⟨names, hfirst⟩ := hstep.1 h
    obtain ⟨names', hrest⟩ := ih hstep.2
    exact ⟨names ++ names', hfirst.append hrest⟩

theorem reference_compiles {follow : CompileAt} {i : NodeId} {args : List Ty}
    (hf : ∀ {underWay t c r c'}, Yields (follow underWay t) c r c' →
      ∃ names, Compiles g underWay [t] c [r] names c')
    (h : Yields (reference g follow underWay i d args) c r c') (bases : List Declaration) :
    ∃ names, Compiles g underWay [.reference i d args bases] c [r] names c' := by
  obtain ⟨u, c₀, hu, h⟩ := yields_bind.1 h
  obtain ⟨ids, hids, rfl⟩ := yields_uid hu
  by_cases hk : d.kind = .classDecl
  · simp only [hk, if_true] at h
    obtain ⟨rfl, rfl⟩ := yields_pure.1 h
    exact ⟨[], .ofClass hids hk⟩
  · simp only [hk, if_false] at h
    obtain ⟨_, _, hget, h⟩ := yields_bind.1 h
    obtain ⟨rfl, rfl⟩ := yields_get.1 hget
    split at h
    · next hkey =>
        rw [Bool.or_eq_true, Arena.lookup_isSome, contains_iff_mem] at hkey
        obtain ⟨rfl, rfl⟩ := yields_pure.1 h
        exact ⟨[], .known hids hk hkey⟩
    · next hkey =>
        rw [Bool.or_eq_true, Arena.lookup_isSome, contains_iff_mem, not_or] at hkey
        cases ht : g.target? i with
        | none =>
          simp only [ht] at h
          obtain ⟨rfl, rfl⟩ := yields_warn.1 h
          exact ⟨[], .bodyless (w := ⟨_, _⟩) hids hk ht rfl⟩
        | some t =>
          simp only [ht, yields_bind, yields_modify, yields_pure] at h
          obtain ⟨b, c₁, hb, _, _, rfl, rfl, rfl⟩ := h
          obtain ⟨names, hnames⟩ := hf hb
          exact ⟨_, .body hids hk hkey.1 hkey.2 ht hnames⟩

/-- By induction on the number of references that may be followed. -/
theorem guardWithin_compiles (n : Nat) : ∀ {underWay t c r c'},
    Yields (guardWithin g n underWay t) c r c' →
      ∃ names, Compiles g underWay [t] c [r] names c' := by
  induction n with
  | zero => exact fun h => absurd h not_yields_exhausted
  | succ n ihn =>
    intro underWay t
    simp only [guardWithin]
    induction t using Ty.induct with
    | basic ht =>
      intro c r c' h
      obtain ⟨-, rfl⟩ := (yields_basic ht fun _ => "").1 h
      exact ⟨[], .basic ht fun uidOf => ((yields_basic ht uidOf).1 h).1⟩
    | composed ht ih =>
      intro c r c' h
      obtain ⟨rs, hrun, rfl⟩ := (yields_composed ht).1 h
      obtain ⟨names, hnames⟩ := hrun.compiles fun m hm _ _ _ h => ih m hm h
      exact ⟨names, .composed ht hnames⟩
    | reference i d args bases =>
      intro c r c' h
      rw [guard] at h
      exact reference_compiles ihn h bases
    | unknown ht =>
      intro c r c' h
      obtain ⟨w, hname, hw⟩ := yields_unknown ht
      obtain ⟨rfl, rfl⟩ := hw.1 h
      exact ⟨[], .unknown ht hname⟩

theorem InTurn.run (h : InTurn (fun t => Yields (typeGuard g t)) ts c rs c') :
    ∃ names, Compiles g [] ts c rs names c' :=
  h.compiles fun _ _ _ _ _ h => guardWithin_compiles _ h

end Compile

theorem typeGuard_compiles (h : Yields (typeGuard g t) c r c') :
    ∃ names, Compiles g [] [t] c [r] names c' :=
  guardWithin_compiles _ h

/-! ## Growth -/

/-- The names are defined or under way. -/
def Compiler.Knows (c : Compiler) (underWay names : List String) : Prop :=
  ∀ key ∈ names, key ∈ c.arena.keys ∨ key ∈ underWay

/-- What a successful step of compiling keeps, while the guards under some names are under way. -/
structure Compiler.Grows (underWay : List String) (c c' : Compiler) : Prop where
  ids : c.ids.Extends c'.ids
  /-- Identifiers stay distinct. -/
  distinct : c.ids.Distinct → c'.ids.Distinct
  /-- Named guards are only added, at the end. -/
  entries : c.arena.entries <+: c'.arena.entries
  /-- Each name is defined once. -/
  nodup : c.arena.keys.Nodup → c'.arena.keys.Nodup
  /-- A name under way is not defined. -/
  apart : ∀ key ∈ c'.arena.keys, key ∈ c.arena.keys ∨ key ∉ underWay
  /-- New guards refer to what is defined or under way. -/
  closed : ∀ e ∈ c'.arena.entries, e ∈ c.arena.entries ∨ c'.Knows underWay e.2.refs

namespace Compiler

variable {underWay : List String} {c c₁ c₂ : Compiler}

theorem Grows.keys (h : Grows underWay c c₁) (hkey : key ∈ c.arena.keys) : key ∈ c₁.arena.keys := by
  obtain ⟨e, he, rfl⟩ := mem_map.1 hkey
  exact mem_map_of_mem (h.entries.subset he)

theorem Grows.knows (h : Grows underWay c c₁) {names : List String}
    (hn : c.Knows underWay names) : c₁.Knows underWay names := by
  intro key hkey
  exact (hn key hkey).imp_left h.keys

/-- A step that leaves the named guards alone. -/
theorem Grows.of_arena_eq (hids : c.ids.Extends c₁.ids) (hd : c.ids.Distinct → c₁.ids.Distinct)
    (ha : c₁.arena = c.arena) : Grows underWay c c₁ where
  ids := hids
  distinct := hd
  entries := by rw [ha]
  nodup := by rw [ha]; exact id
  apart := by rw [ha]; exact fun _ hkey => Or.inl hkey
  closed := by rw [ha]; exact fun _ he => Or.inl he

theorem Grows.refl (underWay : List String) (c : Compiler) : Grows underWay c c :=
  Grows.of_arena_eq (.refl _) id rfl

theorem Grows.of_uid {u : String} {ids : Registry} (h : c.ids.uid d = .ok (u, ids))
    (ws : List GuardWarning) : Grows underWay c { c with ids, warnings := ws } :=
  Grows.of_arena_eq (Registry.uid_extends h) (fun hd => hd.uid h) rfl

theorem Grows.trans (h1 : Grows underWay c c₁) (h2 : Grows underWay c₁ c₂) :
    Grows underWay c c₂ where
  ids := h1.ids.trans h2.ids
  distinct := fun hd => h2.distinct (h1.distinct hd)
  entries := h1.entries.trans h2.entries
  nodup := fun hn => h2.nodup (h1.nodup hn)
  apart := by
    intro key hkey
    obtain hkey | hkey := h2.apart key hkey
    · exact h1.apart key hkey
    · exact .inr hkey
  closed := by
    intro e he
    obtain he | he := h2.closed e he
    · obtain he | he := h1.closed e he
      · exact .inl he
      · exact .inr (h2.knows he)
    · exact .inr he

/-- A name under way is still to be defined. -/
theorem Grows.fresh (h : Grows (key :: underWay) c c₁) (hnew : key ∉ c.arena.keys) :
    key ∉ c₁.arena.keys := by
  intro hmem
  obtain hmem | hmem := h.apart key hmem
  · exact hnew hmem
  · exact hmem mem_cons_self

/-- Defining a name that was under way ends its being so. -/
theorem Grows.define {b : Guard} (h : Grows (key :: underWay) c c₁) (hnew : key ∉ c.arena.keys)
    (hway : key ∉ underWay) (hb : c₁.Knows (key :: underWay) b.refs) :
    Grows underWay c { c₁ with arena := c₁.arena.define key b } := by
  have hkey := h.fresh hnew
  have hentries := Arena.entries_define hkey b
  have hkeys := Arena.keys_define hkey b
  -- a name that was known while `key` was under way is known now that it is defined
  have hknows : ∀ names, c₁.Knows (key :: underWay) names →
      Knows { c₁ with arena := c₁.arena.define key b } underWay names := by
    intro names hn k hk
    rw [hkeys]
    obtain hk | hk := hn k hk
    · exact .inl (mem_append_left _ hk)
    · obtain rfl | hk := mem_cons.1 hk
      · exact .inl (by simp)
      · exact .inr hk
  refine ⟨h.ids, h.distinct, ?_, ?_, ?_, ?_⟩
  · rw [hentries]
    exact h.entries.trans (prefix_append _ _)
  · intro hn
    rw [hkeys]
    simpa using (h.nodup hn).concat hkey
  · intro k hk
    rw [hkeys, mem_append, mem_singleton] at hk
    obtain hk | rfl := hk
    · exact (h.apart k hk).imp_right fun hk hmem => hk (mem_cons_of_mem _ hmem)
    · exact .inr hway
  · intro e he
    rw [hentries, mem_append, mem_singleton] at he
    obtain he | rfl := he
    · exact (h.closed e he).imp_right (hknows _)
    · exact .inr (hknows _ hb)

end Compiler

/-- A run grows the state, and knows the names that its guards refer to. -/
theorem Compiles.grows {names : List String} (h : Compiles g underWay ts c rs names c') :
    c.Grows underWay c' ∧ ∀ r ∈ rs, c'.Knows underWay r.refs := by
  induction h with
  | nil => exact ⟨.refl _ _, by simp⟩
  | append _ _ ih ih' =>
    refine ⟨ih.1.trans ih'.1, forall_mem_append.2 ⟨fun r hr => ?_, ih'.2⟩⟩
    exact ih'.1.knows (ih.2 r hr)
  | basic ht hr =>
    refine ⟨.refl _ _, ?_⟩
    simp [← hr fun _ => "", ht.byName_bare.1, Compiler.Knows]
  | composed ht h ih =>
    refine ⟨ih.1, ?_⟩
    intro r hr key hkey
    rw [mem_singleton.1 hr, ht.mem_refs h.length_eq] at hkey
    obtain ⟨m, hm, hkey⟩ := hkey
    exact ih.2 m hm key hkey
  | unknown =>
    exact ⟨.of_arena_eq (.refl _) id rfl, by simp [Guard.refs, Compiler.Knows]⟩
  | ofClass hu => exact ⟨.of_uid hu _, by simp [Guard.refs, Compiler.Knows]⟩
  | known hu hk hkey => exact ⟨.of_uid hu _, by simpa [Guard.refs, Compiler.Knows] using hkey⟩
  | bodyless hu => exact ⟨.of_uid hu _, by simp [Guard.refs, Compiler.Knows]⟩
  | @body underWay names i d args bases c c₁ u ids t r hu hk hkey hway ht h ih =>
    have hall := ((Compiler.Grows.of_uid hu c.warnings).trans ih.1).define hkey hway
      (ih.2 r (mem_singleton_self r))
    refine ⟨hall, ?_⟩
    have hkeys : (c₁.arena.define (applicationKey u args) r).keys = _ :=
      Arena.keys_define (ih.1.fresh hkey) r
    simp [Guard.refs, Compiler.Knows, hkeys]

/-- A whole type: every name that the guard or a new named guard refers to is defined. -/
theorem typeGuard_grows (h : Yields (typeGuard g t) c r c') :
    c.Grows [] c' ∧ c'.Knows [] r.refs := by
  obtain ⟨names, hrun⟩ := typeGuard_compiles h
  exact ⟨hrun.grows.1, hrun.grows.2 r (mem_singleton_self r)⟩

/-! ## The guards of members -/

/-- The guard of a member, from the guard of the type of its field. -/
def TyField.member (f : TyField) (r : Guard) : FieldGuard :=
  ⟨f.name, f.optional, if f.optional then r.optional else r⟩

section

variable {g : Graph} {t : Ty} {fields : List TyField} {c c' : Compiler} {ks : List FieldGuard}

/-- The guards of the members of a type with fields are compiled one after another. -/
theorem yields_memberGuards (hfields : fieldsOf g t = some fields) :
    Yields (memberGuards g t) c ks c' ↔ ∃ rs,
      Compile.InTurn (fun t => Yields (typeGuard g t)) (fields.map TyField.type) c rs c' ∧
        ks = (fields.zip rs).map fun p => p.1.member p.2 := by
  unfold memberGuards
  simp only [hfields]
  clear hfields
  induction fields generalizing c c' ks with
  | nil =>
    rw [compileFields, yields_pure]
    constructor
    · rintro ⟨rfl, rfl⟩
      exact ⟨[], .nil, rfl⟩
    · rintro ⟨_, ⟨⟩, rfl⟩
      exact ⟨rfl, rfl⟩
  | cons f fields ih =>
    simp only [compileFields, compileField, yields_bind, yields_pure, ih]
    constructor
    · rintro ⟨_, _, ⟨r, c₁, hfirst, rfl, rfl⟩, _, _, ⟨rs, hrest, rfl⟩, rfl, rfl⟩
      exact ⟨r :: rs, .cons hfirst hrest, rfl⟩
    · rintro ⟨_, _ | ⟨hfirst, hrest⟩, rfl⟩
      exact ⟨_, _, ⟨_, _, hfirst, rfl, rfl⟩, _, _, ⟨_, hrest, rfl⟩, rfl, rfl⟩

/-- A type without fields has no guards of members; if it is unknown, a warning is added. -/
theorem yields_memberGuards_none (hfields : fieldsOf g t = none) :
    ∃ ws, (ws = [] ↔ t.isUnknown = false) ∧ ∀ {c c' : Compiler} {ks : List FieldGuard},
      Yields (memberGuards g t) c ks c' ↔
        ks = [] ∧ c' = { c with warnings := c.warnings ++ ws } := by
  unfold memberGuards
  simp only [hfields]
  cases t with
  | deferred i source =>
    refine ⟨[⟨(Ty.deferred i source).text, (Ty.deferred i source).text⟩], by simp [Ty.isUnknown], ?_⟩
    simp only [yields_map, yields_warn]
    grind
  | unrepresentable i reason =>
    refine ⟨[⟨(Ty.unrepresentable i reason).text, reason⟩], by simp [Ty.isUnknown], ?_⟩
    simp only [yields_map, yields_warn]
    grind
  | _ =>
    refine ⟨[], by simp [Ty.isUnknown], ?_⟩
    intro c c' ks
    rw [append_nil]
    exact yields_pure.trans (and_congr eq_comm eq_comm)

theorem memberGuards_grows (h : Yields (memberGuards g t) c ks c') :
    c.Grows [] c' ∧ ∀ f ∈ ks, c'.Knows [] f.guard.refs := by
  cases hfields : fieldsOf g t with
  | some fields =>
    obtain ⟨rs, hrun, rfl⟩ := (yields_memberGuards hfields).1 h
    obtain ⟨names, hrun⟩ := hrun.run
    obtain ⟨hgrows, hknows⟩ := hrun.grows
    refine ⟨hgrows, fun k hk => ?_⟩
    obtain ⟨⟨f, r⟩, hmem, rfl⟩ := mem_map.1 hk
    -- an optional guard is the guard or absence, which refers to nothing
    have hrefs : (f.member r).guard.refs = r.refs := by
      unfold TyField.member
      split
      · simp [Guard.optional, Guard.refs, Guard.refsAll]
      · rfl
    rw [hrefs]
    exact hknows r (of_mem_zip hmem).2
  | none =>
    obtain ⟨ws, -, hnone⟩ := yields_memberGuards_none hfields
    obtain ⟨rfl, rfl⟩ := hnone.1 h
    exact ⟨.of_arena_eq (.refl _) id rfl, by simp⟩

end

end Componentry
