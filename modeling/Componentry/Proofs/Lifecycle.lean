import Componentry.Lifecycle
import Mathlib.Data.List.Perm.Basic

/-!
# Code that is moved into the hook

What an author writes in a component runs in three places: the initial values of the fields, the
body of the constructor, and the hook. `ClassDecl.trace` puts them one after another, as they run
when an instance is made and its hook is called. Moving the code into the hook keeps this trace: the
parameters are put away and taken out again, and the first super call comes first; nothing else is
lost, repeated or put elsewhere (`hooked_conserves`).
-/

namespace Componentry

open List

variable {o : LifecycleOptions} {c : ClassDecl} {body rest : List Stmt} {call : Option Stmt}
  {full hook : Method}

/-! ## Traces -/

mutual

/-- The statements that run for a statement: those of a block one by one. -/
def Stmt.steps : Stmt → List Stmt
  | .block _ ss => Stmt.stepsAll ss
  | .run l e => [.run l e]
  | .bind l kind b t v => [.bind l kind b t v]
  | .yield l v => [.yield l v]

def Stmt.stepsAll : List Stmt → List Stmt
  | [] => []
  | s :: ss => s.steps ++ Stmt.stepsAll ss

end

theorem Stmt.stepsAll_append (ss us : List Stmt) :
    Stmt.stepsAll (ss ++ us) = Stmt.stepsAll ss ++ Stmt.stepsAll us := by
  induction ss with
  | nil => rw [Stmt.stepsAll, nil_append, nil_append]
  | cons s ss ih =>
    rw [cons_append, Stmt.stepsAll, ih, Stmt.stepsAll, append_assoc]

theorem Stmt.stepsAll_singleton (s : Stmt) : Stmt.stepsAll [s] = s.steps := by
  rw [Stmt.stepsAll, Stmt.stepsAll, append_nil]

/-- The constructors among members. -/
def constructorsOf (ms : List Member) : List Constructor :=
  ms.filterMap fun
    | .constructor k => some k
    | _ => none

/-- The methods of instances with a name. -/
def instanceMethods (name : String) (ms : List Member) : List Method :=
  ms.filterMap fun
    | .method m => if m.name == name && !m.static then some m else none
    | _ => none

theorem instanceMethods_append (name : String) (ms ns : List Member) :
    instanceMethods name (ms ++ ns) = instanceMethods name ms ++ instanceMethods name ns :=
  filterMap_append

/-- The initial values of the fields of instances, as assignments. -/
def initialsOf (ms : List Member) : List Stmt :=
  ms.filterMap fun
    | .field f => if f.static then none else f.init.map f.assignment
    | _ => none

/-- What runs of a class when an instance is made and its hook is called: initial values, then the
constructor, then the hook. -/
def ClassDecl.trace (hook : String) (c : ClassDecl) : List Stmt :=
  initialsOf c.members ++ Stmt.stepsAll ((constructorsOf c.members).flatMap (·.body)) ++
    Stmt.stepsAll ((instanceMethods hook c.members).flatMap (·.body))

theorem assignments_perInstance (c : ClassDecl) :
    assignments c.perInstance = initialsOf c.members := by
  unfold ClassDecl.perInstance ClassDecl.fields initialsOf assignments
  induction c.members with
  | nil => rfl
  | cons m ms ih =>
    cases m with
    | field f =>
      cases hstatic : f.static <;> cases hinit : f.init <;> simp [hstatic, hinit, ih]
    | _ => simpa using ih

/-- An initial value is assigned in a single step. -/
theorem stepsAll_initialsOf (ms : List Member) : Stmt.stepsAll (initialsOf ms) = initialsOf ms := by
  unfold initialsOf
  induction ms with
  | nil => rfl
  | cons m ms ih =>
    cases m with
    | field f =>
      cases hstatic : f.static <;> cases hinit : f.init <;>
        simp [hstatic, hinit, ih, Stmt.stepsAll, Stmt.steps, Field.assignment]
    | _ => simpa using ih

/-! ## The constructor -/

/-- The first super call of a body, if it has one, and the statements besides it. -/
inductive FirstSuper : List Stmt → Option Stmt → List Stmt → Prop where
  | absent {body : List Stmt} (h : ∀ s ∈ body, s.isSuperCall = false) :
      FirstSuper body none body
  | found {before after : List Stmt} {call : Stmt} (h : ∀ s ∈ before, s.isSuperCall = false)
      (hcall : call.isSuperCall = true) :
      FirstSuper (before ++ call :: after) (some call) (before ++ after)

theorem firstSuper_splitSuper (body : List Stmt) :
    FirstSuper body (splitSuper body).1 (splitSuper body).2 := by
  induction body with
  | nil => exact .absent nofun
  | cons s ss ih =>
    unfold splitSuper
    cases hs : s.isSuperCall with
    | true => exact @FirstSuper.found [] ss s nofun hs
    | false =>
      rw [if_neg (by simp)]
      show FirstSuper (s :: ss) (splitSuper ss).1 (s :: (splitSuper ss).2)
      revert ih
      generalize (splitSuper ss).1 = call
      generalize (splitSuper ss).2 = rest
      intro ih
      cases ih with
      | absent h => exact .absent (forall_mem_cons.2 ⟨hs, h⟩)
      | @found before after call h hcall =>
        have hbefore : ∀ u ∈ s :: before, u.isSuperCall = false :=
          forall_mem_cons.2 ⟨hs, h⟩
        exact @FirstSuper.found (s :: before) after call hbefore hcall

/-- A super call is a single step. -/
theorem steps_of_isSuperCall {s : Stmt} (h : s.isSuperCall = true) : s.steps = [s] := by
  cases s with
  | block l ss => cases h
  | _ => rw [Stmt.steps]

/-- Nothing but the first super call changes its place. -/
theorem FirstSuper.steps_perm (h : FirstSuper body call rest) :
    (call.toList ++ Stmt.stepsAll rest).Perm (Stmt.stepsAll body) := by
  cases h with
  | absent h => exact Perm.refl _
  | @found before after call h hcall =>
    rw [Stmt.stepsAll_append, Stmt.stepsAll_append, Stmt.stepsAll, steps_of_isSuperCall hcall]
    simp only [Option.toList_some, singleton_append]
    exact perm_middle.symm

theorem FirstSuper.steps_sublist (h : FirstSuper body call rest) :
    (Stmt.stepsAll rest).Sublist (Stmt.stepsAll body) := by
  cases h with
  | absent h => exact Sublist.refl _
  | @found before after call h hcall =>
    rw [Stmt.stepsAll_append, Stmt.stepsAll_append, Stmt.stepsAll]
    exact (Sublist.refl _).append (sublist_append_right _ _)

theorem FirstSuper.steps_call (h : FirstSuper body call rest) :
    Stmt.stepsAll call.toList = call.toList := by
  cases h with
  | absent h => rfl
  | found h hcall =>
    rw [Option.toList_some, Stmt.stepsAll_singleton, steps_of_isSuperCall hcall]

/-- The statement puts the values of parameters, in order, into a field. -/
def Stmt.Captures (field : String) (params : List Param) (s : Stmt) : Prop :=
  ∃ loc, s = .run loc (.assign loc (Expr.ownMember field)
    (.array loc (params.map fun p => .name p.loc p.name)))

/-- The statement declares the names of parameters, in order, as what a field holds. -/
def Stmt.Unpacks (field : String) (params : List Param) (s : Stmt) : Prop :=
  ∃ loc, s = .bind loc .fixed (.elements (params.map Param.name)) none
    (some (Expr.ownMember field))

/-- The parameters are taken out by one statement, unless there are none. -/
theorem loadArgs_cases (field : String) (k : Constructor) :
    (k.params = [] ∧ loadArgs field k = []) ∨
      k.params ≠ [] ∧ ∃ s, loadArgs field k = [s] ∧ s.Unpacks field k.params := by
  unfold loadArgs
  cases hparams : k.params with
  | nil => exact Or.inl ⟨rfl, rfl⟩
  | cons p ps => exact Or.inr ⟨cons_ne_nil _ _, _, rfl, k.loc, rfl⟩

/-- Taking the parameters out is a single step. -/
theorem stepsAll_loadArgs (field : String) (k : Constructor) :
    Stmt.stepsAll (loadArgs field k) = loadArgs field k := by
  obtain ⟨-, h⟩ | ⟨-, s, h, loc, rfl⟩ := loadArgs_cases field k
  · rw [h]
    rfl
  · rw [h]
    rfl

/-! ## Members -/

/-- What becomes of a member that is no constructor: the hook is replaced by `full`, a field of
instances with an initial value is declared without it, all else stays. -/
inductive Member.Kept (hook : String) (full : Method) : Member → Member → Prop where
  | hook {m : Method} (hname : m.name = hook) (hstatic : m.static = false) :
      Kept hook full (.method m) (.method full)
  | method {m : Method} (h : m.name ≠ hook ∨ m.static = true) :
      Kept hook full (.method m) (.method m)
  | declared {f : Field} {init : Expr} (hstatic : f.static = false) (hinit : f.init = some init) :
      Kept hook full (.field f) (.field
        { f with
          init := none, readOnly := false, type := some (f.type.getD (typeFromValue init))
          definite := !f.optional || f.definite })
  | field {f : Field} (h : f.static = true ∨ f.init = none) :
      Kept hook full (.field f) (.field f)

/-- Members and what becomes of them, in order: a field for the parameters is declared in front of
the constructor. -/
inductive Rebuilt (o : LifecycleOptions) (full : Method) : List Member → List Member → Prop where
  | nil : Rebuilt o full [] []
  | kept {m m' : Member} {ms ms' : List Member} (h : Member.Kept o.hook full m m')
      (hms : Rebuilt o full ms ms') : Rebuilt o full (m :: ms) (m' :: ms')
  | constructor {k k' : Constructor} {args : Field} {ms ms' : List Member}
      (hargs : args.name = o.argsField ∧ args.init = none ∧ args.static = false)
      (hms : Rebuilt o full ms ms') :
      Rebuilt o full (.constructor k :: ms) (.field args :: .constructor k' :: ms')

theorem rebuilt_hooked (o : LifecycleOptions) (full : Method) (ms : List Member) :
    Rebuilt o full ms (ms.flatMap (Member.hooked o full)) := by
  induction ms with
  | nil => exact .nil
  | cons m ms ih =>
    rw [flatMap_cons]
    cases m with
    | field f =>
      cases hstatic : f.static with
      | true =>
        simp only [Member.hooked, hstatic]
        exact .kept (.field (Or.inl hstatic)) ih
      | false =>
        cases hinit : f.init with
        | none =>
          simp only [Member.hooked, hstatic, hinit]
          exact .kept (.field (Or.inr hinit)) ih
        | some init =>
          simp only [Member.hooked, hstatic, hinit]
          exact .kept (.declared hstatic hinit) ih
    | constructor k => exact .constructor ⟨rfl, rfl, rfl⟩ ih
    | method m =>
      by_cases h : (m.name == o.hook && !m.static) = true
      · rw [show Member.hooked o full (.method m) = [.method full] from if_pos h]
        rw [Bool.and_eq_true, beq_iff_eq, Bool.not_eq_true'] at h
        exact .kept (.hook h.1 h.2) ih
      · rw [show Member.hooked o full (.method m) = [.method m] from if_neg h]
        rw [Bool.and_eq_true, beq_iff_eq, Bool.not_eq_true', not_and_or] at h
        exact .kept (.method (h.imp_right fun h => by simpa using h)) ih

/-- No initial value is left to run at construction. -/
theorem initialsOf_rebuilt {ms ms' : List Member} (h : Rebuilt o full ms ms') :
    initialsOf ms' = [] := by
  induction h with
  | nil => rfl
  | @kept m m' ms ms' hm hms ih =>
    unfold initialsOf at ih ⊢
    cases hm with
    | field hf =>
      rename_i f
      rcases hf with hf | hf <;> simpa [hf] using ih
    | _ => simpa using ih
  | constructor hargs hms ih =>
    unfold initialsOf at ih ⊢
    simpa [hargs] using ih

/-- The constructors are those of the class, with less in them. -/
theorem constructorsOf_hooked (o : LifecycleOptions) (full : Method) (ms : List Member) :
    constructorsOf (ms.flatMap (Member.hooked o full)) =
      (constructorsOf ms).map (Constructor.reduced o.argsField) := by
  induction ms with
  | nil => rfl
  | cons m ms ih =>
    unfold constructorsOf at ih ⊢
    rw [flatMap_cons, filterMap_append, ih]
    cases m with
    | field f =>
      cases hstatic : f.static <;> cases hinit : f.init <;>
        simp [Member.hooked, hstatic, hinit]
    | constructor k => simp [Member.hooked]
    | method m => cases h : (m.name == o.hook && !m.static) <;> simp [Member.hooked, h]

/-- Every hook of the class is replaced. -/
theorem instanceMethods_rebuilt {ms ms' : List Member} (hname : full.name = o.hook)
    (hstatic : full.static = false) (h : Rebuilt o full ms ms') :
    instanceMethods o.hook ms' = (instanceMethods o.hook ms).map fun _ => full := by
  induction h with
  | nil => rfl
  | @kept m m' ms ms' hm hms ih =>
    unfold instanceMethods at ih ⊢
    cases hm with
    | hook hm hs => simpa [hname, hstatic, hm, hs] using ih
    | method hm => rcases hm with hm | hm <;> simpa [hm] using ih
    | _ => simpa using ih
  | constructor hargs hms ih =>
    unfold instanceMethods at ih ⊢
    simpa using ih

/-! ## The hook -/

/-- The hook that a class without one gets. -/
def emptyHook (hook : String) (c : ClassDecl) : Method :=
  { loc := c.loc, name := hook, params := [], result := none, static := false, body := [] }

/-- The hook is the member of its name, which must be a method of instances, or a new one. -/
theorem hookOf_cases {isNew : Bool} (h : hookOf o c = .ok (hook, isNew)) :
    (isNew = true ∧ c.member? o.hook = none ∧ hook = emptyHook o.hook c) ∨
      isNew = false ∧ c.member? o.hook = some (.method hook) ∧ hook.static = false := by
  unfold hookOf at h
  split at h
  · rename_i hm
    cases h
    exact Or.inl ⟨rfl, hm, rfl⟩
  · rename_i m hm
    split at h
    · cases h
    · rename_i hs
      cases h
      exact Or.inr ⟨rfl, hm, by simpa using hs⟩
  · cases h

/-- A member that is a method of instances with a name is found under the name. -/
theorem instanceMethods_filter (name : String) (ms : List Member) :
    instanceMethods name (ms.filter (·.name? == some name)) = instanceMethods name ms := by
  unfold instanceMethods
  rw [filterMap_filter]
  congr 1
  funext m
  cases m with
  | method m => by_cases hm : m.name = name <;> simp [Member.name?, hm]
  | _ => simp

theorem instanceMethods_of_none (h : c.member? o.hook = none) :
    instanceMethods o.hook c.members = [] := by
  have hnone : c.members.filter (·.name? == some o.hook) = [] := by
    rw [filter_eq_nil_iff]
    exact find?_eq_none.1 h
  rw [← instanceMethods_filter, hnone]
  rfl

/-- The only member of the name of the hook is the only hook. -/
theorem instanceMethods_of_some (hone : (c.members.filter (·.name? == some o.hook)).length ≤ 1)
    (h : c.member? o.hook = some (.method hook)) (hstatic : hook.static = false) :
    instanceMethods o.hook c.members = [hook] ∧ hook.name = o.hook := by
  have hname : hook.name = o.hook := by
    have hfound := find?_some h
    simpa [Member.name?] using hfound
  have hmem : Member.method hook ∈ c.members.filter (·.name? == some o.hook) :=
    mem_filter.2 ⟨mem_of_find?_eq_some h, by simp [Member.name?, hname]⟩
  have honly : c.members.filter (·.name? == some o.hook) = [.method hook] := by
    revert hone hmem
    generalize c.members.filter (·.name? == some o.hook) = found
    intro hone hmem
    match found with
    | [m] => rw [mem_singleton.1 hmem]
    | m :: m' :: ms => simp at hone
  rw [← instanceMethods_filter, honly]
  exact ⟨by simp [instanceMethods, hname, hstatic], hname⟩

/-- What moving the code gives, taken apart. -/
theorem hooked_cases {options : LifecycleOptions} {r : HookedClass} (h : c.hooked options = .ok r) :
    ∃ hook isNew full, hookOf options.complete c = .ok (hook, isNew) ∧ full = { hook with
        body := initialsOf c.members ++ ((lastConstructor c.members).map
            (Constructor.moved options.complete.argsField)).toList ++ hook.body } ∧
      r.decl = { c with
        members := (if isNew then [.method full] else []) ++
          c.members.flatMap (Member.hooked options.complete full) } := by
  unfold ClassDecl.hooked at h
  cases hhook : hookOf options.complete c with
  | error e =>
    simp only [hhook] at h
    cases h
  | ok found =>
    obtain ⟨hook, isNew⟩ := found
    simp only [hhook, bind, Except.bind] at h
    split at h
    · cases h
    · cases h
      refine ⟨hook, isNew, _, rfl, rfl, ?_⟩
      rw [assignments_perInstance]

/-- The hook before and after: the one that the class has, or an empty one. -/
theorem instanceMethods_hooked {isNew : Bool}
    (hone : (c.members.filter (·.name? == some o.hook)).length ≤ 1)
    (hhook : hookOf o c = .ok (hook, isNew)) (hfull : full = { hook with body := body }) :
    (instanceMethods o.hook c.members).flatMap (·.body) = hook.body ∧
      instanceMethods o.hook ((if isNew then [.method full] else []) ++
        c.members.flatMap (Member.hooked o full)) = [full] ∧
      (isNew = true ∧ instanceMethods o.hook c.members = [] ∧ hook = emptyHook o.hook c ∨
        isNew = false ∧ instanceMethods o.hook c.members = [hook]) := by
  obtain ⟨rfl, hnone, rfl⟩ | ⟨rfl, hsome, hstatic⟩ := hookOf_cases hhook
  · have hmethods := instanceMethods_of_none hnone
    have hfullName : full.name = o.hook := by rw [hfull]; rfl
    have hfullStatic : full.static = false := by rw [hfull]; rfl
    have hrest := instanceMethods_rebuilt hfullName hfullStatic (rebuilt_hooked o full c.members)
    rw [hmethods] at hrest ⊢
    refine ⟨rfl, ?_, Or.inl ⟨rfl, rfl, rfl⟩⟩
    have hfirst : instanceMethods o.hook [.method full] = [full] := by
      simp [instanceMethods, hfullName, hfullStatic]
    rw [if_pos rfl, instanceMethods_append, hfirst, hrest]
    rfl
  · obtain ⟨hmethods, hname⟩ := instanceMethods_of_some hone hsome hstatic
    have hfullName : full.name = o.hook := by rw [hfull]; exact hname
    have hfullStatic : full.static = false := by rw [hfull]; exact hstatic
    have hrest := instanceMethods_rebuilt hfullName hfullStatic (rebuilt_hooked o full c.members)
    rw [hmethods] at hrest ⊢
    exact ⟨by simp, hrest, Or.inr ⟨rfl, rfl⟩⟩

/-- Moving the code of a class keeps it. The constructor is left with the first super call and
the capture of its parameters; the hook assigns the initial values, takes the parameters out in a
block with the rest of the constructor, and goes on as before. What runs is what ran before, besides
the capture and the unpacking, with the first super call in front. -/
theorem hooked_conserves {c : ClassDecl} {options : LifecycleOptions} {r : HookedClass}
    (hctor : (constructorsOf c.members).length ≤ 1)
    (hhook : (c.members.filter (·.name? == some options.complete.hook)).length ≤ 1)
    (h : c.hooked options = .ok r) :
    let o := options.complete
    ∃ hook full : Method,
      -- the hook is the author's, or an empty one in front of the other members
      (∃ ms, Rebuilt o full c.members ms ∧
        (instanceMethods o.hook c.members = [] ∧ hook = emptyHook o.hook c ∧
            r.decl = { c with members := .method full :: ms } ∨
          instanceMethods o.hook c.members = [hook] ∧ r.decl = { c with members := ms })) ∧
      instanceMethods o.hook r.decl.members = [full] ∧
      full = { hook with body := full.body } ∧
      (constructorsOf c.members = [] ∧ constructorsOf r.decl.members = [] ∧
          full.body = initialsOf c.members ++ hook.body ∧
          r.decl.trace o.hook = c.trace o.hook ∨
        ∃ k call rest capture unpack, constructorsOf c.members = [k] ∧
          FirstSuper k.body call rest ∧ capture.Captures o.argsField k.params ∧
          (k.params = [] ∧ unpack = [] ∨
            k.params ≠ [] ∧ ∃ s, unpack = [s] ∧ s.Unpacks o.argsField k.params) ∧
          constructorsOf r.decl.members = [{ k with body := call.toList ++ [capture] }] ∧
          full.body = initialsOf c.members ++ [.block k.loc (unpack ++ rest)] ++ hook.body ∧
          -- the trace, and the trace without what the author did not write
          r.decl.trace o.hook = call.toList ++ capture :: initialsOf c.members ++ unpack ++
            Stmt.stepsAll rest ++ Stmt.stepsAll hook.body ∧
          (call.toList ++ initialsOf c.members ++ Stmt.stepsAll rest ++
            Stmt.stepsAll hook.body).Perm (c.trace o.hook) ∧
          (initialsOf c.members ++ Stmt.stepsAll rest ++ Stmt.stepsAll hook.body).Sublist
            (c.trace o.hook)) := by
  intro o
  obtain ⟨hook, isNew, full, hhookOf, hfull, hdecl⟩ := hooked_cases h
  obtain ⟨hbody, hmethods, hcases⟩ := instanceMethods_hooked hhook hhookOf hfull
  have hrebuilt := rebuilt_hooked o full c.members
  have hmembers : r.decl.members = (if isNew then [.method full] else []) ++
      c.members.flatMap (Member.hooked o full) := by rw [hdecl]
  have hinitials : initialsOf r.decl.members = [] := by
    have hrest := initialsOf_rebuilt hrebuilt
    rw [hmembers]
    unfold initialsOf at hrest ⊢
    cases isNew <;> simpa using hrest
  have hconstructors : constructorsOf r.decl.members =
      (constructorsOf c.members).map (Constructor.reduced o.argsField) := by
    rw [hmembers, ← constructorsOf_hooked o full]
    cases isNew <;> simp [constructorsOf]
  rw [← hmembers] at hmethods
  have htrace : r.decl.trace o.hook =
      Stmt.stepsAll ((constructorsOf r.decl.members).flatMap (·.body)) ++
        Stmt.stepsAll full.body := by
    unfold ClassDecl.trace
    rw [hinitials, hmethods]
    simp
  refine ⟨hook, full, ⟨_, hrebuilt, ?_⟩, hmethods, by rw [hfull], ?_⟩
  · obtain ⟨rfl, hnone, hempty⟩ | ⟨rfl, hsome⟩ := hcases
    · exact Or.inl ⟨hnone, hempty, hdecl⟩
    · exact Or.inr ⟨hsome, hdecl⟩
  have hlast : lastConstructor c.members = (constructorsOf c.members).getLast? := rfl
  match hks : constructorsOf c.members, hctor with
  | [], _ =>
    have hfullBody : full.body = initialsOf c.members ++ hook.body := by
      rw [hfull, hlast, hks]
      simp
    refine Or.inl ⟨rfl, by rw [hconstructors, hks]; rfl, hfullBody, ?_⟩
    rw [htrace, hconstructors, hks, hfullBody, ClassDecl.trace, hks, hbody,
      Stmt.stepsAll_append, stepsAll_initialsOf]
    simp [Stmt.stepsAll]
  | [k], _ =>
    have hsuper := firstSuper_splitSuper k.body
    have hfullBody : full.body = initialsOf c.members ++
        [.block k.loc (loadArgs o.argsField k ++ (splitSuper k.body).2)] ++ hook.body := by
      rw [hfull, hlast, hks]
      rfl
    have htraceOf : c.trace o.hook = initialsOf c.members ++ Stmt.stepsAll k.body ++
        Stmt.stepsAll hook.body := by
      rw [ClassDecl.trace, hks, hbody]
      simp
    refine Or.inr ⟨k, _, _, storeArgs o.argsField k, loadArgs o.argsField k, rfl, hsuper,
      ⟨k.loc, rfl⟩, loadArgs_cases _ _, by rw [hconstructors, hks]; rfl, hfullBody, ?_, ?_, ?_⟩
    · rw [htrace, hconstructors, hks, hfullBody]
      have hreduced : ((map (Constructor.reduced o.argsField) [k]).flatMap (·.body)) =
          (splitSuper k.body).1.toList ++ [storeArgs o.argsField k] := by
        simp [Constructor.reduced]
      rw [hreduced]
      simp only [Stmt.stepsAll_append, stepsAll_initialsOf, Stmt.stepsAll_singleton, Stmt.steps,
        hsuper.steps_call, stepsAll_loadArgs, storeArgs]
      simp
    · rw [htraceOf]
      refine Perm.append_right _ ?_
      refine Perm.trans ?_ (hsuper.steps_perm.append_left _)
      rw [← append_assoc]
      exact (perm_append_comm).append_right _
    · rw [htraceOf]
      exact ((Sublist.refl _).append hsuper.steps_sublist).append (Sublist.refl _)

/-- A call of a function without arguments, as a statement. -/
def callOf (callee : Expr) : Stmt := .run .nowhere (.call .nowhere callee [])

/-- A component with two super calls, a hook, and fields with and without initial values. -/
def gateClass : ClassDecl :=
  let field : Field :=
    { loc := .nowhere, name := "speed", type := none, optional := false, static := false
      readOnly := true, definite := false, init := some (.literal .nowhere (.bool true)) }
  { decl := ⟨0, "Gate", .classDecl, "gate.ts", .nowhere⟩
    typeParams := [], parent := none, implemented := [], decorations := []
    members :=
      [.constructor
        { loc := .nowhere, params := [.mk .nowhere none "lights" false none]
          body := [callOf (.name .nowhere "first"), callOf (.parent .nowhere),
            .block .nowhere [callOf (.parent .nowhere), callOf (.name .nowhere "second")]] },
       .field field, .field { field with name := "shared", static := true },
       .method
        { loc := .nowhere, name := "onStart", params := [], result := none, static := false
          body := [callOf (.name .nowhere "third")] }] }

theorem hooked_conserves_gate : (constructorsOf gateClass.members).length ≤ 1 ∧
      (gateClass.members.filter (·.name? == some "onStart")).length ≤ 1 ∧
      (gateClass.trace "onStart").length = 6 ∧
      ∃ (r : HookedClass) (full : Method) (erased : List Stmt), gateClass.hooked {} = .ok r ∧
        instanceMethods "onStart" r.decl.members = [full] ∧ full.body.length = 3 ∧
        (r.decl.trace "onStart").length = erased.length + 2 ∧
        erased.Perm (gateClass.trace "onStart") := by
  have hctor : (constructorsOf gateClass.members).length ≤ 1 := by decide
  have hhook : (gateClass.members.filter (·.name? == some "onStart")).length ≤ 1 := by decide
  refine ⟨hctor, hhook, rfl, ?_⟩
  obtain ⟨r, hr⟩ : ∃ r, gateClass.hooked {} = .ok r := ⟨_, rfl⟩
  obtain ⟨hook, full, ⟨ms, -, hown⟩, hfull, -, hcode⟩ :=
    @hooked_conserves gateClass {} r hctor hhook hr
  obtain ⟨hnone, -⟩ |
    ⟨k, call, rest, capture, unpack, hk, -, -, hunpack, -, hbody, htrace, hperm, -⟩ := hcode
  · cases hnone
  · cases hk
    obtain ⟨hparams, -⟩ | ⟨-, s, rfl, -⟩ := hunpack
    · cases hparams
    obtain ⟨hnone, -⟩ | ⟨hsome, -⟩ := hown
    · cases hnone
    cases hsome
    refine ⟨r, full, _, hr, hfull, by rw [hbody]; rfl, ?_, hperm⟩
    rw [show (({} : LifecycleOptions).complete).hook = "onStart" from rfl] at htrace
    rw [htrace]
    simp only [length_append, length_cons, length_nil]
    omega

end Componentry
