import Componentry.Proofs.Types.Inheritance
import Componentry.Proofs.Types.Written

/-!
# The arguments of shared references

A reference to an interface or an alias is shared by all applications whose arguments read the same.
So the arguments that a reference carries are those of the first such application, not those it was
asked for with. `Applied` says what a reference has to do with the arguments it was asked for, and
`instantiate_args` proves it for every application after any queries: declaration and text are as
asked for, whoever comes first with a text settles the arguments for all who come later, and where
the arguments can be read off their texts they are the same types.

All that is needed of the table of shared references is kept by every step that resolving is made
of. `Steady` names the three ways in which these steps change the state; by `Congruence.instantiate`
a whole run keeps what they keep.
-/

namespace Componentry

open List Resolve Resolution

variable {r r' : Resolution} {args : List Ty} {env env' : Env} {deep : Declaration → Resolve Ty}
  {d : Declaration} {p : Program} {depth : Nat} {params : List TypeParam} {S : Resolution → Prop}
  {t : Ty}

variable {α β : Type}

/-! ## What resolving keeps -/

/-- From a state with `S` the step leads to a state with `S`. -/
def Keeps (S : Resolution → Prop) (m : Resolve α) : Prop := ∀ r a r', Gives m r a r' → S r → S r'

/-- The property is kept by everything that is done to the state: a number is taken, a reference
that is not shared yet is shared, and a reference comes to stand for a type. -/
structure Steady (S : Resolution → Prop) : Prop where
  next : ∀ {r}, S r → S { r with graph := { r.graph with next := r.graph.next + 1 } }
  opened : ∀ {r d args}, r.find? (sharedKey d args) = none → S r →
    S (Sound.opened r d args)
  closed : ∀ {r id t}, S r → S (Sound.closed r id t)

/-- So it is kept by all that resolving is made of. -/
theorem Steady.congruence (hS : Steady S) : Congruence fun _ m _ => Keeps S m where
  pure a := by
    intro r b r' h hr
    obtain ⟨-, rfl⟩ := gives_pure.1 h
    exact hr
  bind hm hf := by
    intro r b r' h hr
    obtain ⟨a, r₁, ha, hb⟩ := gives_bind.1 h
    exact hf ha _ _ _ hb (hm _ _ _ ha hr)
  get := by
    intro r a r' h hr
    obtain ⟨-, rfl⟩ := gives_get.1 h
    exact hr
  failure := fun _ _ _ h => absurd h not_gives_failure
  fresh := by
    intro r a r' h hr
    unfold fresh at h
    cases h
    exact hS.next hr
  share {deep _ depth d bound body _} hdeep hbody := by
    intro r t r' h hr
    have hshares : Resolve.Shares deep depth d (fun _ => body) [] bound r t r' :=
      shares_of_share h
    cases hshares with
    | found _ => exact hr
    | deep _ _ hgives => exact hdeep _ _ _ hgives hr
    | made hnew htarget => exact hS.closed (hbody _ _ _ htarget (hS.opened hnew hr))

namespace Resolve

section

variable {inst : Instantiate} {scope : Option SourceFile}

theorem type_keeps (hS : Steady S) (hinst : ∀ d args, Keeps S (inst d args)) (t : TypeExpr) :
    Keeps S (type p inst scope env t) :=
  @Congruence.type _ hS.congruence p inst inst scope env hinst t

theorem bindParams_keeps (hS : Steady S) (hinst : ∀ d args, Keeps S (inst d args))
    (params : List TypeParam) (args : List Ty) :
    Keeps S (bindParams p inst scope env params args) :=
  @Congruence.bindParams _ hS.congruence p inst inst scope env hinst params args

theorem interfaceBody_keeps (hS : Steady S) (hinst : ∀ d args, Keeps S (inst d args))
    (i : InterfaceDecl) : Keeps S (interfaceBody p inst env i) :=
  @Congruence.interfaceBody _ hS.congruence p inst inst env hinst i

end

theorem instantiate_keeps (hS : Steady S) (p : Program) (hdeep : ∀ d, Keeps S (deep d))
    (n depth : Nat) (d : Declaration) (args : List Ty) :
    Keeps S (instantiate p deep n depth d args) :=
  @Congruence.instantiate deep deep _ hS.congruence p hdeep n depth d args

end Resolve

/-! ## The table of shared references -/

/-- Every shared reference stands under the key of what it refers to, and no key occurs twice. -/
structure Resolution.Tabled (r : Resolution) : Prop where
  entry : ∀ e ∈ r.shared, ∃ id d args, e = (sharedKey d args, .reference id d args [])
  keys : (r.shared.map Prod.fst).Nodup

namespace Resolution

theorem tabled_empty : empty.Tabled := ⟨nofun, nodup_nil⟩

theorem steady_tabled : Steady Tabled where
  next h := ⟨h.entry, h.keys⟩
  closed h := ⟨h.entry, h.keys⟩
  opened {r d args} hnew h := by
    refine ⟨?_, ?_⟩
    · intro e he
      obtain rfl | he := mem_cons.1 he
      · exact ⟨_, d, args, rfl⟩
      · exact h.entry e he
    · refine nodup_cons.2 ⟨?_, h.keys⟩
      intro hmem
      obtain ⟨⟨key, t⟩, he, rfl⟩ := mem_map.1 hmem
      exact notMem_of_find hnew he

/-- What is shared stays shared. -/
theorem steady_holds (id : NodeId) (d : Declaration) (args : List Ty) :
    Steady fun r => r.Holds id d args where
  next h := h
  closed h := h
  opened _ h := mem_cons_of_mem _ h

theorem Tabled.find_of_holds (hr : r.Tabled) {id : NodeId} (h : r.Holds id d args) :
    r.find? (sharedKey d args) = some (.reference id d args []) := by
  cases hfind : r.find? (sharedKey d args) with
  | none => exact absurd h (notMem_of_find hfind)
  | some t =>
    have hsame := inj_on_of_nodup_map hr.keys (mem_of_find hfind) h rfl
    rw [(Prod.mk.inj hsame).2]

end Resolution

/-! ## What parameters are bound to -/

namespace Resolve

section

variable {p : Program} {inst : Instantiate} {scope : Option SourceFile}

/-- The first parameter is bound to the first argument, if there is one, else to something. -/
theorem gives_bindParams_cons {param : TypeParam}
    (h : Gives (bindParams p inst scope env (param :: params) args) r env' r') :
    ∃ t r₁, (∀ a ∈ args.head?, a = t) ∧
      Gives (bindParams p inst scope ((param.name, t) :: env) params args.tail) r₁ env' r' := by
  cases args with
  | cons arg args =>
    unfold bindParams at h
    refine ⟨arg, r, ?_, h⟩
    intro a ha
    cases ha
    rfl
  | nil =>
    unfold bindParams at h
    cases hdefault : param.default with
    | some d | none =>
      rw [hdefault] at h
      obtain ⟨t, r₁, -, hrest⟩ := gives_bind.1 h
      exact ⟨t, r₁, by simp, hrest⟩

/-- Binding leaves names alone that are not among the parameters. -/
theorem lookup_bindParams {name : String}
    (h : Gives (bindParams p inst scope env params args) r env' r')
    (hname : name ∉ params.map (·.name)) : env'.lookup name = env.lookup name := by
  induction params generalizing args env r with
  | nil =>
    unfold bindParams at h
    obtain ⟨rfl, -⟩ := gives_pure.1 h
    rfl
  | cons param params ih =>
    rw [map_cons, mem_cons, not_or] at hname
    obtain ⟨t, r₁, -, hrest⟩ := gives_bindParams_cons h
    have hne : (name == param.name) = false := beq_eq_false_iff_ne.2 hname.1
    rw [ih hrest hname.2, lookup_cons, hne]

/-- Parameters with different names are all bound, those that have arguments to their arguments. -/
theorem boundArgs_bindParams (h : Gives (bindParams p inst scope env params args) r env' r')
    (hnodup : (params.map (·.name)).Nodup) :
    (boundArgs env' params).length = params.length ∧
      args.take params.length <+: boundArgs env' params := by
  induction params generalizing args env r with
  | nil => exact ⟨rfl, nil_prefix⟩
  | cons param params ih =>
    rw [map_cons, nodup_cons] at hnodup
    obtain ⟨t, r₁, hhead, hrest⟩ := gives_bindParams_cons h
    have hlookup : env'.lookup param.name = some t := by
      rw [lookup_bindParams hrest hnodup.1, lookup_cons, beq_self_eq_true]
    have hbound : boundArgs env' (param :: params) = t :: boundArgs env' params :=
      filterMap_cons_some hlookup
    obtain ⟨hlength, hprefix⟩ := ih hrest hnodup.2
    rw [hbound, length_cons, length_cons, hlength]
    refine ⟨rfl, ?_⟩
    cases args with
    | nil => exact nil_prefix
    | cons arg args =>
      rw [take_succ_cons]
      exact cons_prefix_cons.2 ⟨hhead arg rfl, hprefix⟩

end

end Resolve

/-! ## Applications -/

/-- The reference that an application of `d` to `bound` gives in the state `r`, leaving `r'`. It is
a reference to `e` with the arguments `args`. -/
structure Applied (d : Declaration) (bound : List Ty) (r r' : Resolution) (id : NodeId)
    (e : Declaration) (args : List Ty) : Prop where
  decl : e.id = d.id
  text : Ty.textAll "," args = Ty.textAll "," bound
  /-- The reference is there for later applications. -/
  kept : r'.Holds id e args
  /-- If a reference with the declaration and the text was there, it is that one. -/
  first : ∀ {id' e' args'}, r.Holds id' e' args' → e'.id = d.id →
    Ty.textAll "," args' = Ty.textAll "," bound → id' = id ∧ e' = e ∧ args' = args
  /-- Arguments that can be read off their texts are those asked for. -/
  same : (∀ t ∈ bound, t.Readable) → (∀ t ∈ args, t.Readable) →
    Ty.NamesTell (Ty.declsAll bound) (Ty.declsAll args) → Ty.sameAll bound args = true

namespace Resolve

/-- The reference of an application at any depth where it is not cut off. -/
theorem Shares.applied (hdepth : depth < maxDepth) {body : Env → Resolve Ty} {bound : List Ty}
    {r₁ : Resolution} (h : Shares deep depth d body env bound r₁ t r') (hr₁ : r₁.Tabled)
    (hgrows : ∀ {id e args}, r.Holds id e args → r₁.Holds id e args)
    (hbody : ∀ {id e args}, Keeps (fun r => r.Holds id e args) (body env)) :
    ∃ id e args, t = .reference id e args [] ∧ Applied d bound r r' id e args := by
  have hsame : ∀ {args : List Ty}, Ty.textAll "," args = Ty.textAll "," bound →
      (∀ t ∈ bound, t.Readable) → (∀ t ∈ args, t.Readable) →
      Ty.NamesTell (Ty.declsAll bound) (Ty.declsAll args) → Ty.sameAll bound args = true :=
    fun htext hbound hargs hnames => Ty.sameAll_of_textAll hbound hargs hnames htext.symm
  -- a reference that was there is still there, under the key that is looked up
  have hfirst : ∀ {id' e' args'}, r.Holds id' e' args' → e'.id = d.id →
      Ty.textAll "," args' = Ty.textAll "," bound →
      r₁.find? (sharedKey d bound) = some (.reference id' e' args' []) := by
    intro id' e' args' hold hid htext
    have hkey : sharedKey d bound = sharedKey e' args' := by
      unfold sharedKey
      rw [hid, htext]
    rw [hkey]
    exact hr₁.find_of_holds (hgrows hold)
  cases h with
  | deep _ hcut _ => exact absurd hcut (Nat.not_le.2 hdepth)
  | found hfind =>
    have hmem := mem_of_find hfind
    obtain ⟨id, e, args, heq⟩ := hr₁.entry _ hmem
    obtain ⟨hkey, rfl⟩ := Prod.mk.inj heq
    obtain ⟨hid, htext⟩ := Prod.mk.inj hkey
    refine ⟨id, e, args, rfl, hid.symm, htext.symm, ?_, ?_, hsame htext.symm⟩
    · rw [hkey] at hmem
      exact hmem
    · intro id' e' args' hold hid' htext'
      have hthere := hfirst hold hid' htext'
      rw [hfind] at hthere
      cases hthere
      exact ⟨rfl, rfl, rfl⟩
  | made hnew htarget =>
    refine ⟨_, d, bound, rfl, rfl, rfl, ?_, ?_, hsame rfl⟩
    · have hheld := hbody _ _ _ htarget (Sound.holds_opened.2 (Or.inl ⟨rfl, rfl, rfl⟩))
      exact hheld
    · intro id' e' args' hold hid' htext'
      have hthere := hfirst hold hid' htext'
      rw [hnew] at hthere
      cases hthere

/-- An application binds the parameters and then shares the reference. -/
theorem shares_of_instantiate {n : Nat} (hd : d.IsShared)
    (h : Gives (instantiate p deep (n + 1) depth d args) r t r') :
    ∃ body : Env → Resolve Ty,
      Gives (shared p (instantiate p deep n depth) deep depth d (p.paramsOf d) args body) r t r' ∧
      ∀ {S : Resolution → Prop}, Steady S → (∀ d, Keeps S (deep d)) →
        ∀ env, Keeps S (body env) := by
  unfold instantiate at h
  obtain hkind | hkind := hd
  · rw [hkind] at h
    dsimp only at h
    cases hi : p.interface? d with
    | none =>
      rw [hi] at h
      exact absurd h not_gives_failure
    | some i =>
      rw [hi] at h
      rw [Program.paramsOf_interface hkind hi]
      exact ⟨_, h, fun hS hdeep env =>
        interfaceBody_keeps hS (instantiate_keeps hS p hdeep n (depth + 1)) i⟩
  · rw [hkind] at h
    dsimp only at h
    cases ha : p.alias? d with
    | none =>
      rw [ha] at h
      exact absurd h not_gives_failure
    | some a =>
      rw [ha] at h
      rw [Program.paramsOf_alias hkind ha]
      exact ⟨_, h, fun hS hdeep env =>
        type_keeps hS (instantiate_keeps hS p hdeep n (depth + 1)) a.type⟩

theorem tooDeep_keeps (hS : Steady S) (d : Declaration) : Keeps S (tooDeep d) :=
  hS.congruence.node

end Resolve

/-! ## Queries -/

/-- The states that queries, made one after another, lead to. -/
inductive Program.Queried (p : Program) : Resolution → Prop
  | start : Queried p empty
  | query {r r' : Resolution} {t : Ty} (hr : Queried p r) (q : TypeQuery)
      (h : Gives (q.resolve p p.instantiate) r t r') : Queried p r'

theorem Program.Queried.tabled (h : p.Queried r) : r.Tabled := by
  have hinst := instantiate_keeps steady_tabled p
    (tooDeep_keeps steady_tabled) p.resolveBound 0
  induction h with
  | start => exact tabled_empty
  | query _ q h ih => exact type_keeps steady_tabled hinst q.type _ _ _ h ih

/-- After any queries, an interface or an alias that is applied to arguments gives a reference to
that declaration. Its arguments read like those asked for, defaults filled in; a reference that was
there with such arguments is taken. They are the same types if both can be read off their texts and
declarations of one name are one. -/
theorem instantiate_args {p : Program} {r : Resolution} (hr : p.Queried r) {d : Declaration}
    (hd : d.IsShared) {args : List Ty} {t : Ty} {r' : Resolution}
    (h : Gives (p.instantiate d args) r t r') :
    ∃ env r₁, Gives (p.bindParams d (p.paramsOf d) args) r env r₁ ∧
      (((p.paramsOf d).map (·.name)).Nodup →
        (boundArgs env (p.paramsOf d)).length = (p.paramsOf d).length ∧
        args.take (p.paramsOf d).length <+: boundArgs env (p.paramsOf d)) ∧
      ∃ id e args', t = .reference id e args' [] ∧
        Applied d (boundArgs env (p.paramsOf d)) r r' id e args' := by
  obtain ⟨n, hn⟩ : ∃ n, p.resolveBound = n + 1 := Nat.exists_eq_succ_of_ne_zero (by
    unfold Program.resolveBound maxDepth
    omega)
  unfold Program.instantiate at h
  rw [hn] at h
  obtain ⟨body, hshared, hbody⟩ := shares_of_instantiate hd h
  obtain ⟨env, r₁, henv, hshares⟩ := shares_of_gives hshared
  -- the parameters are bound within a smaller bound, so they are bound within the whole one
  have hbind : Gives (p.bindParams d (p.paramsOf d) args) r env r₁ := by
    unfold Program.bindParams Program.instantiate
    rw [hn]
    exact congruence_refines.bindParams (instantiate_succ_refines p _ n 0) _ _ _ _ _ henv
  have hkeeps : ∀ {S : Resolution → Prop}, Steady S → S r → S r₁ := fun hS =>
    bindParams_keeps hS
      (instantiate_keeps hS p (tooDeep_keeps hS) n 0) _ _ _ _ _ henv
  refine ⟨env, r₁, hbind, boundArgs_bindParams henv, ?_⟩
  exact hshares.applied (by decide) (hkeeps steady_tabled hr.tabled)
    (hkeeps (steady_holds _ _ _))
    (hbody (steady_holds _ _ _) (tooDeep_keeps (steady_holds _ _ _))
      env)

namespace Boxes

/-- The declaration of an interface. -/
def decl (id : Nat) (name file : String) : Declaration := ⟨id, name, .interfaceDecl, file, ⟨1, 1⟩⟩

/-- A file with one interface. -/
def file (d : Declaration) (params : List TypeParam) (fields : List Field) : SourceFile where
  path := d.file
  external := false
  ambient := false
  classes := []
  interfaces := [⟨d, params, [], fields, []⟩]
  aliases := []
  decorators := []

/-- A generic interface. -/
def box : Declaration := decl 0 "Box" "box.ts"

/-- A file with options of its own. -/
def lamp : SourceFile := file (decl 1 "Options" "lamp.ts") [] [Family.field "watts" "number"]

/-- Another file with options of its own. -/
def door : SourceFile := file (decl 2 "Options" "door.ts") [] [Family.field "locked" "boolean"]

def program : Program where
  files := [file box [⟨"T", none⟩] [Family.field "content" "T"], lamp, door]

/-- The name that both files declare. -/
def options : TypeExpr := .reference ⟨1, 1⟩ "Options" []

/-- A box of options is asked for in one file, options in the other. -/
def ask : Resolve Ty := do
  let _ ← TypeQuery.resolve program program.instantiate
    ⟨some lamp, [], .reference ⟨1, 1⟩ "Box" [options]⟩
  TypeQuery.resolve program program.instantiate ⟨some door, [], options⟩

theorem queried_of_ask (h : Gives ask empty t r) : program.Queried r := by
  obtain ⟨_, r₁, hfirst, hsecond⟩ := gives_bind.1 h
  exact .query (.query .start _ hfirst) _ hsecond

/-- The arguments of a reference have the property. -/
def argsAre (P : List Ty → Bool) : Ty → Bool
  | .reference _ _ args _ => P args
  | _ => false

/-- An application after queries has a result, and its arguments have a property. -/
theorem exists_gives {m : Resolve Ty} {f : Ty → Resolve Ty} {P : Ty → List Ty → Bool}
    (h : ((do let a ← m; return (a, ← f a) : Resolve (Ty × Ty)).run empty).any
      (fun x => argsAre (P x.1.1) x.1.2) = true) :
    ∃ a r t r', Gives m empty a r ∧ Gives (f a) r t r' ∧ argsAre (P a) t = true := by
  obtain ⟨⟨⟨a, t⟩, r'⟩, hrun, hargs⟩ := (Option.any_eq_true _ _).1 h
  obtain ⟨a', r, ha, hrest⟩ := gives_bind.1 hrun
  obtain ⟨t', r₁, ht, hpure⟩ := gives_bind.1 hrest
  obtain ⟨heq, rfl⟩ := gives_pure.1 hpure
  cases heq
  exact ⟨a, r, t, r₁, ha, ht, hargs⟩

/-- The one type of texts. -/
def isText : List Ty → Bool
  | [.primitive _ name] => name == "string"
  | _ => false

theorem readable_text (id : NodeId) : (Ty.primitive id "string").Readable :=
  ⟨(by decide : "string" ∈ primitiveWords), rfl⟩

theorem readable_of_isText (h : isText args = true) :
    (∀ t ∈ args, t.Readable) ∧ Ty.declsAll args = [] := by
  match args, h with
  | [.primitive id name], h =>
    obtain rfl := beq_iff_eq.1 h
    exact ⟨forall_mem_singleton.2 (readable_text id), rfl⟩

theorem bound_eq {a : Ty} {bound : List Ty} (hlength : bound.length = 1) (h : [a] <+: bound) :
    bound = [a] := (h.eq_of_length hlength.symm).symm

end Boxes

/-- The options of `door.ts` are asked for and the box of those of `lamp.ts` is given, because they
read the same; a box of texts has texts. -/
theorem instantiate_args_options : (∃ asked r t r' id e args, Boxes.program.Queried r ∧
      Gives (Boxes.program.instantiate Boxes.box [asked]) r t r' ∧
      t = .reference id e args [] ∧ Ty.textAll "," args = Ty.textAll "," [asked] ∧
      Ty.sameAll [asked] args = false) ∧
    ∃ asked r t r' id e args, Boxes.program.Queried r ∧
      Gives (Boxes.program.instantiate Boxes.box [asked]) r t r' ∧
      t = .reference id e args [] ∧ Ty.sameAll [asked] args = true := by
  have hshared : Boxes.box.IsShared := Or.inl rfl
  have hnodup : ((Boxes.program.paramsOf Boxes.box).map (·.name)).Nodup := by decide
  refine ⟨?_, ?_⟩
  · obtain ⟨asked, r, t, r', hasked, ht, hargs⟩ := Boxes.exists_gives (m := Boxes.ask)
      (f := fun asked => Boxes.program.instantiate Boxes.box [asked])
      (P := fun asked args => !Ty.sameAll [asked] args) (by decide +kernel)
    have hr := Boxes.queried_of_ask hasked
    obtain ⟨env, r₁, -, hbound, id, e, args, rfl, happlied⟩ := instantiate_args hr hshared ht
    have htext := happlied.text
    rw [Boxes.bound_eq (hbound hnodup).1 (hbound hnodup).2] at htext
    exact ⟨asked, r, _, r', id, e, args, hr, ht, rfl, htext, by simpa [Boxes.argsAre] using hargs⟩
  · obtain ⟨asked, r, t, r', hasked, ht, hargs⟩ := Boxes.exists_gives (m := Boxes.ask)
      (f := fun _ => Boxes.program.instantiate Boxes.box [.primitive 0 "string"])
      (P := fun _ args => Boxes.isText args) (by decide +kernel)
    have hr := Boxes.queried_of_ask hasked
    obtain ⟨env, r₁, -, hbound, id, e, args, rfl, happlied⟩ := instantiate_args hr hshared ht
    obtain ⟨hreadable, hdecls⟩ := Boxes.readable_of_isText hargs
    have hsame := happlied.same
    rw [Boxes.bound_eq (hbound hnodup).1 (hbound hnodup).2, hdecls] at hsame
    refine ⟨_, r, _, r', id, e, args, hr, ht, rfl, ?_⟩
    exact hsame (forall_mem_singleton.2 (Boxes.readable_text 0)) hreadable nofun

end Componentry
