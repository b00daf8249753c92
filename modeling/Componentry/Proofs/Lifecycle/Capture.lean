import Componentry.Proofs.Lifecycle
import Componentry.Proofs.Snippet.Scope

/-!
# Names in code that is moved into the hook

Code that is moved into the hook leaves the scope it was written in: the initial value of a field
was in no function, and the body of the constructor was in the constructor. In the hook it stands
inside the scope of the hook, that is of the parameters and the locals that the author gave the
hook.

`hooked_captures` says what becomes of each use of a name. The moved statements of the constructor
stand in a block that declares the parameters, so they keep the scope of the constructor, and
whatever else was bound is bound as before. A name that was free is looked up in the scope of the
hook: it is captured exactly if the hook has a parameter or a local of that name.
-/

namespace Componentry

open List Stmt

/-- The names that a method binds: its parameters and the locals of its body. -/
def Method.scope (m : Method) : List String :=
  m.params.map Param.name ++ declaredBy m.body

/-- The uses of names in the body of a method. -/
def Method.uses (m : Method) : List Use := usesAll [m.scope] m.body

/-- The names that a constructor binds: its parameters and the locals of its body. -/
def Constructor.scope (k : Constructor) : List String :=
  k.params.map Param.name ++ declaredBy k.body

/-- The uses in the statements of a constructor that are moved, where the author wrote them. -/
def Constructor.movedUses (k : Constructor) : List Use :=
  usesAll [k.scope] (splitSuper k.body).2

/-- The initial values of the fields of instances. -/
def initialValues (ms : List Member) : List Expr :=
  ms.filterMap fun
    | .field f => if f.static then none else f.init
    | _ => none

/-- The uses in the code of a class that is moved, where the author wrote them: the initial values,
which are in no scope, and then the constructor. -/
def ClassDecl.movedUses (c : ClassDecl) : List Use :=
  Expr.usesAll [] (initialValues c.members) ++
    (lastConstructor c.members).toList.flatMap Constructor.movedUses

/-- What becomes of a use that is moved into a function which binds the names `scope`. -/
inductive Use.Moved (scope : List String) : Use → Use → Prop
  /-- It was bound, and is bound by the same scope inside the function. -/
  | bound {x : String} {n : Nat} : Moved scope ⟨x, some n⟩ ⟨x, some (n + 1)⟩
  /-- It was free, and is bound by the function itself. -/
  | captured {x : String} (h : x ∈ scope) : Moved scope ⟨x, none⟩ ⟨x, some 0⟩
  /-- It was free and is free. -/
  | free {x : String} (h : x ∉ scope) : Moved scope ⟨x, none⟩ ⟨x, none⟩

theorem Use.moved_within (scope : List String) (u : Use) :
    Use.Moved scope u (u.within [scope]) := by
  obtain ⟨x, bound⟩ := u
  cases bound with
  | some n => exact .bound
  | none =>
    by_cases hx : x ∈ scope
    · have hwithin : Use.within [scope] ⟨x, none⟩ = ⟨x, some 0⟩ := by
        simp [Use.within, Scopes.binder?, hx]
      rw [hwithin]
      exact .captured hx
    · have hwithin : Use.within [scope] ⟨x, none⟩ = ⟨x, none⟩ := by
        simp [Use.within, Scopes.binder?, hx]
      rw [hwithin]
      exact .free hx

/-! ## The parts of the hook -/

theorem declaredBy_initialsOf (ms : List Member) : declaredBy (initialsOf ms) = [] := by
  unfold initialsOf declaredBy
  rw [flatMap_eq_nil_iff]
  intro s hs
  obtain ⟨m, -, hm⟩ := mem_filterMap.1 hs
  cases m with
  | field f =>
    simp only [Option.ite_none_left_eq_some, Option.map_eq_some_iff] at hm
    obtain ⟨-, init, -, rfl⟩ := hm
    rfl
  | method m => cases hm
  | constructor k => cases hm

/-- An assignment uses the names of the value only. -/
theorem usesAll_initialsOf (sc : Scopes) (ms : List Member) :
    usesAll sc (initialsOf ms) = Expr.usesAll sc (initialValues ms) := by
  unfold initialsOf initialValues
  induction ms with
  | nil => simp only [filterMap_nil, usesAll, Expr.usesAll]
  | cons m ms ih =>
    cases m with
    | field f =>
      cases hstatic : f.static <;> cases hinit : f.init <;>
        simp [hstatic, hinit, ih, usesAll, uses, Expr.usesAll, Expr.uses,
          Field.assignment, Expr.ownMember]
    | _ => simpa using ih

/-- A super call declares nothing. -/
theorem FirstSuper.declaredBy {body rest : List Stmt} {call : Option Stmt}
    (h : FirstSuper body call rest) : declaredBy rest = declaredBy body := by
  cases h with
  | absent h => rfl
  | @found before after call h hcall =>
    have hnone : call.declares = [] := by
      cases call with
      | bind => cases hcall
      | _ => rfl
    simp only [Stmt.declaredBy, flatMap_append, flatMap_cons, hnone, nil_append]

theorem declaredBy_loadArgs (field : String) (k : Constructor) :
    declaredBy (loadArgs field k) = k.params.map Param.name := by
  obtain ⟨hparams, h⟩ | ⟨-, s, h, loc, rfl⟩ := loadArgs_cases field k
  · rw [h, hparams]
    rfl
  · rw [h]
    simp [declaredBy, declares, Binding.names]

theorem usesAll_loadArgs (sc : Scopes) (field : String) (k : Constructor) :
    usesAll sc (loadArgs field k) = [] := by
  obtain ⟨-, h⟩ | ⟨-, s, h, loc, rfl⟩ := loadArgs_cases field k
  · rw [h, usesAll]
  · rw [h]
    simp [usesAll, uses, Expr.usesIn, Expr.uses, TypeExpr.usesIn, Expr.ownMember]

/-- The block binds what the constructor bound, so what was bound there stays so. -/
theorem uses_moved (outer : Scopes) (field : String) (k : Constructor) :
    (k.moved field).uses outer = k.movedUses.map (Use.within outer) := by
  have hscope : declaredBy (loadArgs field k ++ (splitSuper k.body).2) = k.scope := by
    rw [declaredBy_append, declaredBy_loadArgs, (firstSuper_splitSuper k.body).declaredBy]
    rfl
  unfold Constructor.moved Constructor.movedUses
  rw [uses, hscope, usesAll_concat, usesAll_loadArgs, nil_append,
    ← usesAll_append outer [k.scope]]
  rfl

/-- The uses in the hook, once the code is in it. -/
theorem usesAll_hooked (c : ClassDecl) (field : String) (hook : Method) :
    usesAll [hook.scope] (initialsOf c.members ++
        ((lastConstructor c.members).map (Constructor.moved field)).toList ++ hook.body) =
      c.movedUses.map (Use.within [hook.scope]) ++ hook.uses := by
  have hinitials : usesAll [hook.scope] (initialsOf c.members) =
      (Expr.usesAll [] (initialValues c.members)).map (Use.within [hook.scope]) := by
    rw [usesAll_initialsOf, ← Expr.usesAll_append [hook.scope] []]
    rfl
  have hmoved : usesAll [hook.scope]
        ((lastConstructor c.members).map (Constructor.moved field)).toList =
      ((lastConstructor c.members).toList.flatMap Constructor.movedUses).map
        (Use.within [hook.scope]) := by
    cases lastConstructor c.members with
    | none => simp [usesAll]
    | some k => simp [usesAll, uses_moved]
  rw [usesAll_concat, usesAll_concat, hinitials, hmoved, ClassDecl.movedUses, map_append]
  rfl

/-- The code that is moved declares nothing for the hook. -/
theorem declaredBy_hooked (c : ClassDecl) (field : String) (hook : Method) :
    declaredBy (initialsOf c.members ++
        ((lastConstructor c.members).map (Constructor.moved field)).toList ++ hook.body) =
      declaredBy hook.body := by
  have hmoved :
      declaredBy ((lastConstructor c.members).map (Constructor.moved field)).toList = [] := by
    cases lastConstructor c.members with
    | none => rfl
    | some k => rfl
  rw [declaredBy_append, declaredBy_append, declaredBy_initialsOf, hmoved]
  rfl

/-- The hook is a method of instances with the name of the hook. -/
theorem hookOf_named {c : ClassDecl} {o : LifecycleOptions} {hook : Method} {isNew : Bool}
    (h : hookOf o c = .ok (hook, isNew)) : hook.name = o.hook ∧ hook.static = false := by
  obtain ⟨-, -, rfl⟩ | ⟨-, hsome, hstatic⟩ := hookOf_cases h
  · exact ⟨rfl, rfl⟩
  · have hfound := find?_some hsome
    exact ⟨by simpa [Member.name?] using hfound, hstatic⟩

/-- Every hook of the class is the full one, and there is one. -/
theorem hook_hooked {c : ClassDecl} {o : LifecycleOptions} {hook full : Method} {isNew : Bool}
    {body : List Stmt} (hhook : hookOf o c = .ok (hook, isNew))
    (hfull : full = { hook with body := body }) {hooks : List Method}
    (hhooks : hooks = instanceMethods o.hook ((if isNew then [.method full] else []) ++
      c.members.flatMap (Member.hooked o full))) :
    full ∈ hooks ∧ ∀ m ∈ hooks, m = full := by
  have hown := hookOf_named hhook
  have hname : full.name = o.hook := by rw [hfull]; exact hown.1
  have hstatic : full.static = false := by rw [hfull]; exact hown.2
  have hold := instanceMethods_rebuilt hname hstatic (rebuilt_hooked o full c.members)
  have hall : hooks = (if isNew then [full] else []) ++
      (instanceMethods o.hook c.members).map fun _ => full := by
    rw [hhooks, instanceMethods_append, hold]
    cases isNew <;> simp [instanceMethods, hname, hstatic]
  constructor
  · rw [hall]
    obtain ⟨rfl, -, -⟩ | ⟨rfl, hsome, -⟩ := hookOf_cases hhook
    · simp
    · have hmem : hook ∈ instanceMethods o.hook c.members := by
        refine mem_filterMap.2 ⟨.method hook, mem_of_find?_eq_some hsome, ?_⟩
        simp [hown]
      simp only [Bool.false_eq_true, if_false, nil_append]
      exact mem_map.2 ⟨hook, hmem, rfl⟩
  · intro m hm
    rw [hall, mem_append] at hm
    obtain hm | hm := hm
    · cases isNew with
      | true => exact mem_singleton.1 hm
      | false => cases hm
    · obtain ⟨_, -, rfl⟩ := mem_map.1 hm
      rfl

/-- What becomes of the names in the code of a class that is moved into its hook. The hook binds
what the author's hook binds. It uses the names that the moved code uses, in the same order, and
then those that the author's hook uses, bound as before. A name of the moved code that was bound is
bound by the same scope; one that was free is captured if it is a parameter or a local of the
author's hook, and else is free. -/
theorem hooked_captures {c : ClassDecl} {options : LifecycleOptions} {r : HookedClass}
    (h : c.hooked options = .ok r) :
    ∃ hook full : Method,
      (c.member? options.complete.hook = none ∧ hook = emptyHook options.complete.hook c ∨
        c.member? options.complete.hook = some (.method hook)) ∧
      full ∈ instanceMethods options.complete.hook r.decl.members ∧
      (∀ m ∈ instanceMethods options.complete.hook r.decl.members, m = full) ∧
      full.scope = hook.scope ∧
      ∃ moved, full.uses = moved ++ hook.uses ∧
        List.Forall₂ (Use.Moved (hook.params.map Param.name ++ declaredBy hook.body))
          c.movedUses moved := by
  obtain ⟨hook, isNew, full, hhook, hfull, hdecl⟩ := hooked_cases h
  obtain ⟨hmem, honly⟩ := hook_hooked hhook hfull rfl
  have hmembers : r.decl.members = (if isNew then [.method full] else []) ++
      c.members.flatMap (Member.hooked options.complete full) := by rw [hdecl]
  have hscope : full.scope = hook.scope := by
    rw [hfull]
    unfold Method.scope
    rw [declaredBy_hooked]
  have huses : full.uses = c.movedUses.map (Use.within [hook.scope]) ++ hook.uses := by
    unfold Method.uses
    rw [hscope, hfull]
    exact usesAll_hooked c _ hook
  rw [← hmembers] at hmem honly
  refine ⟨hook, full, ?_, hmem, honly, hscope, _, huses, ?_⟩
  · obtain ⟨-, hnone, hempty⟩ | ⟨-, hsome, -⟩ := hookOf_cases hhook
    · exact Or.inl ⟨hnone, hempty⟩
    · exact Or.inr hsome
  · rw [forall₂_map_right_iff, forall₂_same]
    exact fun u _ => Use.moved_within hook.scope u

/-- A component whose hook has a parameter and a local that its other code uses as free names. -/
def shadowedClass : ClassDecl :=
  { gateClass with
    members :=
      [.constructor
        { loc := .nowhere, params := [.mk .nowhere none "lights" false none]
          body := [callOf (.parent .nowhere),
            .run .nowhere (.call .nowhere (.name .nowhere "lights") [.name .nowhere "delay"])] },
       .field
        { loc := .nowhere, name := "speed", type := none, optional := false, static := false
          readOnly := false, definite := false, init := some (.name .nowhere "config") },
       .method
        { loc := .nowhere, name := "onStart", params := [.mk .nowhere none "delay" false none]
          result := none, static := false
          body := [.bind .nowhere .fixed (.name "config") none
            (some (.literal .nowhere (.bool true)))] }] }

theorem hooked_captures_shadowed : ∃ r hook full moved, shadowedClass.hooked {} = .ok r ∧
      shadowedClass.member? "onStart" = some (.method hook) ∧
      full ∈ instanceMethods "onStart" r.decl.members ∧ full.uses = moved ++ hook.uses ∧
      List.Forall₂ (Use.Moved ["delay", "config"])
        [⟨"config", none⟩, ⟨"lights", some 0⟩, ⟨"delay", none⟩] moved := by
  obtain ⟨r, hr⟩ : ∃ r, shadowedClass.hooked {} = .ok r := ⟨_, rfl⟩
  obtain ⟨hook, full, hhook, hfull, -, -, moved, huses, hmoved⟩ := hooked_captures hr
  obtain ⟨hnone, -⟩ | hsome := hhook
  · cases hnone
  · cases hsome
    exact ⟨r, _, full, moved, hr, rfl, hfull, huses, hmoved⟩

/-- Moving code into the hook may capture names: a free name of an initial value, or one that is
free in the constructor, may become bound by the hook. -/
theorem not_captureAvoiding :
    ¬ ∀ (c : ClassDecl) (options : LifecycleOptions) (r : HookedClass) (full : Method) (i : Nat)
        (u u' : Use), c.hooked options = .ok r →
      full ∈ instanceMethods options.complete.hook r.decl.members →
      c.movedUses[i]? = some u → full.uses[i]? = some u' → u.scope = none → u'.scope ≠ some 0 := by
  intro h
  obtain ⟨r, hr⟩ : ∃ r, shadowedClass.hooked {} = .ok r := ⟨_, rfl⟩
  cases hr
  exact h shadowedClass {} _ _ 0 ⟨"config", none⟩ ⟨"config", some 0⟩ rfl (mem_cons_self) rfl
    rfl rfl rfl

end Componentry
