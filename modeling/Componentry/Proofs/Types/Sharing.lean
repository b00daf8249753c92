import Componentry.Proofs.Numbering
import Componentry.Proofs.Types.Walk

/-!
# Shared references

A reference to an interface or an alias is made once and shared; while its body is resolved it is
under way and stands for nothing. `Sound` is the invariant of the state: every shared reference is
under way or stands for a type, and what is known of the types they stand for is known of all of
them. What is known is a parameter, the `Means` of a `Policy`; a policy also says what holds of the
declarations under way when another one is asked for, and has to justify what it claims of a body
from what resolving the body has found.

`instantiate_walks` is the law: as long as nothing is cut off for being nested too deep,
instantiating a declaration keeps the invariant.
-/

namespace Componentry

open List Resolve Resolution

variable {d e : Declaration} {args : List Ty} {id : NodeId} {scope : Option SourceFile}
  {i : InterfaceDecl} {r : Resolution} {t : Ty} {p : Program} {depth : Nat}

/-! ## Declarations of a program -/

/-- The names in the annotations of fields. -/
def fieldNames (bound : List String) (fs : List Field) : List String :=
  fs.flatMap fun f => (f.type.map (TypeExpr.freeNames bound)).getD []

namespace Program

variable {p : Program}

/-- The declaration is one of the program. -/
def Declared (p : Program) (d : Declaration) : Prop := ∃ f ∈ p.files, d ∈ f.declarations

theorem Numbered.eq_of_id (hp : p.Numbered) (hd : p.Declared d) (he : p.Declared e)
    (h : d.id = e.id) : d = e := by
  obtain ⟨f, hf, hdf⟩ := hd
  obtain ⟨g, hg, heg⟩ := he
  have hnodup : ((p.files.flatMap SourceFile.declarations).map (·.id)).Nodup := by
    rw [map_flatMap]
    exact hp
  exact inj_on_of_nodup_map hnodup (mem_flatMap.2 ⟨f, hf, hdf⟩)
    (mem_flatMap.2 ⟨g, hg, heg⟩) h

theorem declared_of_resolve {name : String} (hscope : ∀ f ∈ scope, f ∈ p.files)
    (h : p.resolve? scope name = some d) : p.Declared d := by
  unfold resolve? at h
  cases hlocal : scope.bind fun f => f.declarations.find? (·.name == name) with
  | some e =>
    rw [hlocal] at h
    cases h
    obtain ⟨f, hf, hfind⟩ := Option.bind_eq_some_iff.1 hlocal
    exact ⟨f, hscope f hf, mem_of_find?_eq_some hfind⟩
  | none =>
    rw [hlocal] at h
    have hmem := mem_of_mem_head? h
    obtain ⟨f, hf, hmem⟩ := mem_flatMap.1 hmem
    exact ⟨f, hf, mem_of_mem_filter hmem⟩

theorem fileOf_mem : ∀ f ∈ p.fileOf? d, f ∈ p.files := by
  intro f hf
  exact mem_of_find?_eq_some hf

/-- The type parameters of what a declaration declares. -/
def paramsOf (p : Program) (d : Declaration) : List TypeParam :=
  match d.kind with
  | .classDecl => ((p.class? d).map (·.typeParams)).getD []
  | .interfaceDecl => ((p.interface? d).map (·.typeParams)).getD []
  | .aliasDecl => ((p.alias? d).map (·.typeParams)).getD []
  | .decorator => []


/-- The names in the body of what a declaration declares: in the types that an interface extends
and in those of its fields, or in the type of an alias. -/
def bodyNames (p : Program) (d : Declaration) : List String :=
  let bound := (p.paramsOf d).map (·.name)
  match d.kind with
  | .interfaceDecl =>
    match p.interface? d with
    | some i => TypeExpr.freeNamesAll bound i.parents ++ fieldNames bound i.fields
    | none => []
  | .aliasDecl => ((p.alias? d).map fun a => a.type.freeNames bound).getD []
  | .classDecl | .decorator => []

/-- The body of `d` names `e`. -/
def BodyNamed (p : Program) (d e : Declaration) : Prop :=
  ∃ name ∈ p.bodyNames d, p.resolve? (p.fileOf? d) name = some e

/-- A default of a type parameter of `d` names `e`. -/
def DefaultNamed (p : Program) (d e : Declaration) : Prop :=
  ∃ name ∈ defaultNames [] (p.paramsOf d), p.resolve? (p.fileOf? d) name = some e

end Program

/-- Interfaces and aliases have references that are shared. -/
def Declaration.IsShared (d : Declaration) : Prop :=
  d.kind = .interfaceDecl ∨ d.kind = .aliasDecl

/-! ## The invariant -/

/-- References under way, each with its declaration; the innermost first. -/
abbrev UnderWay := List (NodeId × Declaration)

/-- The reference with a number is shared, for a declaration and its arguments. -/
def Resolution.Holds (r : Resolution) (id : NodeId) (d : Declaration) (args : List Ty) : Prop :=
  (sharedKey d args, Ty.reference id d args []) ∈ r.shared

theorem Resolution.Grows.holds {r' : Resolution} (h : r.Grows r') (hr : r.Holds id d args) :
    r'.Holds id d args :=
  h.shared _ hr

/-- Every shared reference is under way or stands for something, and `Means` holds of what it stands
for. -/
structure Sound (p : Program) (Means : Declaration → Resolution → Ty → Prop) (U : UnderWay)
    (r : Resolution) : Prop where
  entry : ∀ e ∈ r.shared, ∃ id d args, e = (sharedKey d args, .reference id d args [])
  /-- What is shared belongs to the program and has been made before. -/
  known : ∀ {id d args}, r.Holds id d args →
    p.Declared d ∧ id < r.graph.next ∧ (p.paramsOf d = [] → args = [])
  sameId : ∀ {id d args e args'}, r.Holds id d args → r.Holds id e args' → d = e ∧ args = args'
  sameKey : ∀ {id d args id' e args'}, r.Holds id d args → r.Holds id' e args' →
    sharedKey d args = sharedKey e args' → id = id'
  fresh : ∀ {id}, r.graph.next ≤ id → r.graph.target? id = none
  underWay : ∀ {id d}, (id, d) ∈ U → (∃ args, r.Holds id d args) ∧ r.graph.target? id = none
  done : ∀ {id d args}, r.Holds id d args → (id, d) ∈ U ∨ ∃ t, r.graph.target? id = some t
  means : ∀ {id d args t}, r.Holds id d args → r.graph.target? id = some t → Means d r t

namespace Sound

variable {p : Program} {Means : Declaration → Resolution → Ty → Prop} {U : UnderWay}
  {r : Resolution}

theorem empty : Sound p Means [] empty where
  entry := by intro e he; cases he
  known := by intro id d args h; cases h
  sameId := by intro id d args e args' h; cases h
  sameKey := by intro id d args id' e args' h; cases h
  fresh := by intro id _; rfl
  underWay := by intro id d h; cases h
  done := by intro id d args h; cases h
  means := by intro id d args t h; cases h

/-- A number is taken for a new node. -/
theorem next (hup : ∀ d t, Upward fun r => Means d r t) (h : Sound p Means U r) :
    Sound p Means U { r with graph := { r.graph with next := r.graph.next + 1 } } ∧
      r.Grows { r with graph := { r.graph with next := r.graph.next + 1 } } := by
  have hgrows : r.Grows { r with graph := { r.graph with next := r.graph.next + 1 } } :=
    ⟨Nat.le_succ _, fun _ he => he, fun _ _ ht => ht⟩
  refine ⟨⟨h.entry, ?_, h.sameId, h.sameKey, ?_, h.underWay, h.done, ?_⟩, hgrows⟩
  · intro id d args hr
    obtain ⟨hd, hid, hargs⟩ := h.known hr
    exact ⟨hd, Nat.lt_succ_of_lt hid, hargs⟩
  · intro id hid
    exact h.fresh (Nat.le_of_succ_le hid)
  · intro id d args t hr ht
    exact hup d t _ _ hgrows (h.means hr ht)

end Sound

theorem fresh_walks {Means : Declaration → Resolution → Ty → Prop}
    (hup : ∀ d t, Upward fun r => Means d r t) {U : UnderWay} :
    Walks (Sound p Means U) fresh fun _ _ => True := by
  intro r id r' h hS
  unfold fresh at h
  cases h
  exact ⟨(hS.next hup).1, (hS.next hup).2, trivial⟩

theorem Resolution.mem_of_find {key : Nat × String} (h : r.find? key = some t) :
    (key, t) ∈ r.shared := by
  unfold find? at h
  obtain ⟨e, he, rfl⟩ := Option.map_eq_some_iff.1 h
  have hkey : e.1 = key := by simpa using find?_some he
  rw [← hkey]
  exact mem_of_find?_eq_some he

theorem Resolution.notMem_of_find {key : Nat × String} (h : r.find? key = none) :
    (key, t) ∉ r.shared := by
  intro hmem
  unfold find? at h
  rw [Option.map_eq_none_iff, find?_eq_none] at h
  exact h _ hmem (by simp)

namespace Sound

variable {p : Program} {Means : Declaration → Resolution → Ty → Prop} {U : UnderWay}
  {r : Resolution}

/-- The state in which a new reference to `d` is under way. -/
def opened (r : Resolution) (d : Declaration) (args : List Ty) : Resolution where
  graph := { r.graph with next := r.graph.next + 1 }
  shared := (sharedKey d args, .reference r.graph.next d args []) :: r.shared

theorem grows_opened (r : Resolution) (d : Declaration) (args : List Ty) :
    r.Grows (opened r d args) :=
  ⟨Nat.le_succ _, fun _ he => mem_cons_of_mem _ he, fun _ _ ht => ht⟩

theorem holds_opened {args' : List Ty} : (opened r d args).Holds id e args' ↔
      (id = r.graph.next ∧ e = d ∧ args' = args) ∨ r.Holds id e args' := by
  unfold Resolution.Holds opened
  rw [mem_cons]
  constructor
  · rintro (h | h)
    · rw [Prod.mk.injEq] at h
      obtain ⟨-, h⟩ := h
      cases h
      exact .inl ⟨rfl, rfl, rfl⟩
    · exact .inr h
  · rintro (⟨rfl, rfl, rfl⟩ | h)
    · exact .inl rfl
    · exact .inr h

/-- A reference that is not shared yet comes under way. -/
theorem opening (hup : ∀ d t, Upward fun r => Means d r t) (h : Sound p Means U r)
    (hd : p.Declared d) (hargs : p.paramsOf d = [] → args = [])
    (hnew : r.find? (sharedKey d args) = none) :
    Sound p Means ((r.graph.next, d) :: U) (opened r d args) := by
  have hgrows := grows_opened r d args
  have hfree : ∀ {id e args'}, r.Holds id e args' →
      sharedKey d args ≠ sharedKey e args' := by
    intro id e args' hr hkey
    rw [hkey] at hnew
    exact notMem_of_find hnew hr
  refine ⟨?_, ?_, ?_, ?_, ?_, ?_, ?_, ?_⟩
  · intro e he
    obtain rfl | he := mem_cons.1 he
    · exact ⟨_, _, _, rfl⟩
    · exact h.entry e he
  · intro id e args' hr
    obtain ⟨rfl, rfl, rfl⟩ | hr := holds_opened.1 hr
    · exact ⟨hd, Nat.lt_succ_self _, hargs⟩
    · obtain ⟨he, hid, hargs'⟩ := h.known hr
      exact ⟨he, Nat.lt_succ_of_lt hid, hargs'⟩
  · intro id e args₁ e' args₂ hr hr'
    obtain ⟨hid, rfl, rfl⟩ | hold := holds_opened.1 hr
    · obtain ⟨-, rfl, rfl⟩ | hold' := holds_opened.1 hr'
      · exact ⟨rfl, rfl⟩
      · have hlt := (h.known hold').2.1
        rw [hid] at hlt
        exact absurd hlt (lt_irrefl _)
    · obtain ⟨hid, -, -⟩ | hold' := holds_opened.1 hr'
      · have hlt := (h.known hold).2.1
        rw [hid] at hlt
        exact absurd hlt (lt_irrefl _)
      · exact h.sameId hold hold'
  · intro id e args₁ id' e' args₂ hr hr' hkey
    obtain ⟨hid, rfl, rfl⟩ | hold := holds_opened.1 hr
    · obtain ⟨hid', -, -⟩ | hold' := holds_opened.1 hr'
      · rw [hid, hid']
      · exact absurd hkey (hfree hold')
    · obtain ⟨-, rfl, rfl⟩ | hold' := holds_opened.1 hr'
      · exact absurd hkey.symm (hfree hold)
      · exact h.sameKey hold hold' hkey
  · intro id hid
    exact h.fresh (Nat.le_of_succ_le hid)
  · intro id e hmem
    obtain heq | hmem := mem_cons.1 hmem
    · cases heq
      exact ⟨⟨args, holds_opened.2 (.inl ⟨rfl, rfl, rfl⟩)⟩, h.fresh (le_refl _)⟩
    · obtain ⟨⟨args', hr⟩, ht⟩ := h.underWay hmem
      exact ⟨⟨args', holds_opened.2 (.inr hr)⟩, ht⟩
  · intro id e args' hr
    obtain ⟨rfl, rfl, rfl⟩ | hr := holds_opened.1 hr
    · exact .inl mem_cons_self
    · exact (h.done hr).imp_left (mem_cons_of_mem _)
  · intro id e args' t hr ht
    obtain ⟨rfl, rfl, rfl⟩ | hr := holds_opened.1 hr
    · have hnone : r.graph.target? r.graph.next = none := h.fresh (le_refl _)
      rw [show (opened r e args').graph.target? r.graph.next = r.graph.target? r.graph.next from rfl,
        hnone] at ht
      cases ht
    · exact hup e t _ _ hgrows (h.means hr ht)

/-- The state in which the reference with a number stands for a type. -/
def closed (r : Resolution) (id : NodeId) (t : Ty) : Resolution :=
  { r with graph := r.graph.setTarget id t }

theorem target_closed (r : Resolution) (id id' : NodeId) (t : Ty) :
    (closed r id t).graph.target? id' = if id = id' then some t else r.graph.target? id' := by
  unfold closed Graph.setTarget Graph.target?
  rw [find?_cons]
  by_cases h : id = id'
  · simp [h]
  · have hbeq : (id == id') = false := beq_eq_false_iff_ne.2 h
    rw [if_neg h]
    simp only [hbeq]

/-- A reference under way stands for something from now on. -/
theorem closing (hup : ∀ d t, Upward fun r => Means d r t) (h : Sound p Means ((id, d) :: U) r)
    (hU : ∀ u ∈ U, u.1 ≠ id) (ht : Means d r t) :
    Sound p Means U (closed r id t) ∧ r.Grows (closed r id t) := by
  obtain ⟨⟨args, hid⟩, hnone⟩ := h.underWay mem_cons_self
  have hgrows : r.Grows (closed r id t) := by
    refine ⟨le_refl _, fun _ he => he, ?_⟩
    intro i u hi
    rw [target_closed]
    by_cases heq : id = i
    · rw [← heq, hnone] at hi
      cases hi
    · rw [if_neg heq]
      exact hi
  refine ⟨⟨h.entry, h.known, h.sameId, h.sameKey, ?_, ?_, ?_, ?_⟩, hgrows⟩
  · intro i hi
    rw [target_closed]
    have hlt := (h.known hid).2.1
    have hne : id ≠ i := by
      rintro rfl
      exact absurd hlt (Nat.not_lt.2 hi)
    rw [if_neg hne]
    exact h.fresh hi
  · intro i e hmem
    obtain ⟨hr, hi⟩ := h.underWay (mem_cons_of_mem _ hmem)
    refine ⟨hr, ?_⟩
    rw [target_closed, if_neg (hU _ hmem).symm]
    exact hi
  · intro i e args' hr
    rw [target_closed]
    by_cases heq : id = i
    · exact .inr ⟨t, if_pos heq⟩
    · rw [if_neg heq]
      refine (h.done hr).imp_left fun hmem => ?_
      obtain hmem | hmem := mem_cons.1 hmem
      · cases hmem
        exact absurd rfl heq
      · exact hmem
  · intro i e args' u hr hu
    rw [target_closed] at hu
    by_cases heq : id = i
    · rw [if_pos heq] at hu
      cases hu
      subst heq
      obtain ⟨rfl, rfl⟩ := h.sameId hid hr
      exact hup _ _ _ _ hgrows ht
    · rw [if_neg heq] at hu
      exact hup _ _ _ _ hgrows (h.means hr hu)

end Sound

/-! ## Reading what an interface extends -/

theorem fieldsOf_reference {g : Graph} {bases : List Declaration} {oid : NodeId}
    {fs : List TyField} (h : g.target? id = some (.object oid fs)) :
    fieldsOf g (.reference id d args bases) = some fs := by
  unfold fieldsOf
  have hpos : 0 < g.targets.length := by
    unfold Graph.target? at h
    obtain ⟨e, he, -⟩ := Option.map_eq_some_iff.1 h
    exact length_pos_of_mem (mem_of_find?_eq_some he)
  obtain ⟨n, hn⟩ := Nat.exists_eq_succ_of_ne_zero (Nat.ne_of_gt hpos)
  rw [hn]
  simp [fieldsWithin, fieldsIn, h, Except.toOption]

theorem fieldsOf_reference_none {g : Graph} {bases : List Declaration} (h : g.target? id = none) :
    fieldsOf g (.reference id d args bases) = none := by
  unfold fieldsOf
  simp [fieldsWithin, fieldsIn, h, Except.toOption]

/-- The annotation `t`, among those that the interface `i` extends, names the interface `e`. -/
def Program.BaseRef (p : Program) (i : InterfaceDecl) (t : TypeExpr) (e : Declaration) : Prop :=
  ∃ loc name args, t = .reference loc name args ∧ p.resolve? (p.fileOf? i.decl) name = some e ∧
    e.kind = .interfaceDecl ∧
    (args = [] → name ∉ i.typeParams.map (·.name) ∧ name ∉ primitiveWords)

/-- The result is a reference to the declaration, and is shared. -/
def RefersTo (e : Declaration) (t : Ty) (r : Resolution) : Prop :=
  ∃ id args, t = .reference id e args [] ∧ r.Holds id e args

/-- If the declaration has references that are shared, one of them has been made. -/
def Resolution.Knows (e : Declaration) (r : Resolution) : Prop :=
  e.IsShared → ∃ id args, r.Holds id e args

theorem Resolution.knows_upward (e : Declaration) : Upward (Resolution.Knows e) := by
  intro r r' hg h hshared
  obtain ⟨id, args, hr⟩ := h hshared
  exact ⟨id, args, hg.holds hr⟩

/-- What an interface finds in a type that it extends: the fields of a base that stands for
something, and none if the base is under way. -/
def LayerRead (p : Program) (U : UnderWay) (i : InterfaceDecl) (r : Resolution) (t : TypeExpr)
    (layer : List TyField) : Prop :=
  ∀ e, p.BaseRef i t e → ∃ id args, r.Holds id e args ∧
    ((∃ oid, r.graph.target? id = some (.object oid layer)) ∨ (layer = [] ∧ (id, e) ∈ U))

theorem layerRead_upward {U : UnderWay} {t : TypeExpr} {layer : List TyField} :
    Upward fun r => LayerRead p U i r t layer := by
  intro r r' hg h e he
  obtain ⟨id, args, hr, hread⟩ := h e he
  refine ⟨id, args, hg.holds hr, hread.imp_left ?_⟩
  rintro ⟨oid, ht⟩
  exact ⟨oid, hg.target _ _ ht⟩

/-- Nothing stands in for what would be nested too deep: there is no result. -/
def Resolve.uncut (_ : Declaration) : Resolve Ty := failure

/-- The type is what the annotation of a field of the interface resolves to. -/
def ResolvedFrom (p : Program) (i : InterfaceDecl) (f : Field) (t : Ty) : Prop :=
  ∃ n depth env r r', Gives (type? p (instantiate p uncut n depth)
    (p.fileOf? i.decl) env f.type) r t r'

/-- The field `g` of a type is the field `f` as the interface declares it. -/
structure OwnField (p : Program) (i : InterfaceDecl) (f : Field) (g : TyField) : Prop where
  name : g.name = f.name
  optional : g.optional = f.optional
  type : ResolvedFrom p i f g.type

section Bodies

variable {p : Program} {Means : Declaration → Resolution → Ty → Prop} {U : UnderWay}
  {inst : Resolve.Instantiate} {i : InterfaceDecl} {env : Env}

/-- Asking for the named declarations, with references to them as results. -/
def Supplies (p : Program) (Means : Declaration → Resolution → Ty → Prop) (U : UnderWay)
    (inst : Resolve.Instantiate) (scope : Option SourceFile) (names : List String) : Prop :=
  ∀ name ∈ names, ∀ e, p.resolve? scope name = some e → ∀ args,
    Walks (Sound p Means U) (inst e args) fun t r => e.IsShared → RefersTo e t r

theorem Supplies.answers {names : List String} (h : Supplies p Means U inst scope names) :
    Resolve.Answers (Sound p Means U) p inst scope Resolution.Knows names := by
  intro name hname e he args
  refine (h name hname e he args).weaken fun t r ht hshared => ?_
  obtain ⟨id, args, -, hr⟩ := ht hshared
  exact ⟨id, args, hr⟩

theorem Supplies.left {xs ys : List String} (h : Supplies p Means U inst scope (xs ++ ys)) :
    Supplies p Means U inst scope xs :=
  fun name hname => h name (mem_append_left _ hname)

theorem Supplies.right {xs ys : List String} (h : Supplies p Means U inst scope (xs ++ ys)) :
    Supplies p Means U inst scope ys :=
  fun name hname => h name (mem_append_right _ hname)

/-- The type of an annotation that names a declaration is a reference to it. -/
theorem named_walks (hup : ∀ d t, Upward fun r => Means d r t) {bound : List String}
    (henv : Resolve.Binds env bound) {loc : Location} {name : String} {args : List TypeExpr}
    (hname : p.resolve? scope name = some e) (hshared : e.IsShared)
    (hplain : args = [] → name ∉ bound ∧ name ∉ primitiveWords)
    (hsupply : Supplies p Means U inst scope
      (TypeExpr.freeNames bound (.reference loc name args))) :
    Walks (Sound p Means U) (type p inst scope env (.reference loc name args))
      (RefersTo e) := by
  have href : ∀ args, reference p inst scope name args = inst e args := by
    intro args
    simp only [reference, hname]
  cases args with
  | nil =>
    obtain ⟨hbound, hprim⟩ := hplain rfl
    have hfree : TypeExpr.freeNames bound (.reference loc name []) = [name] := by
      simp [TypeExpr.freeNames, TypeExpr.applications, hbound, hprim]
    have hlookup : env.lookup name = none := by
      cases hl : env.lookup name with
      | none => rfl
      | some t => exact absurd ((henv name).2 (by rw [hl]; rfl)) hbound
    have hcond : primitiveWords.contains name = false := by simpa using hprim
    unfold type localName?
    simp only [hlookup, hcond]
    have hwalk := hsupply name (by rw [hfree]; simp) e hname []
    rw [← href []] at hwalk
    exact hwalk.weaken fun _ _ h => h hshared
  | cons a as =>
    unfold type
    rw [TypeExpr.freeNames, TypeExpr.applications, map_append] at hsupply
    have hargs := types_walks (fresh_walks hup) knows_upward henv (a :: as)
      hsupply.left.answers
    refine .bind hargs (fun args => ?_) fun _ _ _ _ _ _ h => h
    rw [href args]
    exact (hsupply name (by simp) e hname args).weaken fun _ _ h => h hshared

/-- What an interface reads from the types it extends, by induction on them. -/
theorem parentFields_walks (hup : ∀ d t, Upward fun r => Means d r t)
    (hobject : ∀ {d r t}, Means d r t → d.kind = .interfaceDecl → ∃ oid fs, t = .object oid fs)
    (henv : Resolve.Binds env (i.typeParams.map (·.name))) :
    ∀ (ts : List TypeExpr) {fields : List TyField}, Supplies p Means U inst (p.fileOf? i.decl)
        (TypeExpr.freeNamesAll (i.typeParams.map (·.name)) ts) →
      Walks (Sound p Means U) (parentFields p inst (p.fileOf? i.decl) env fields ts)
        fun result r =>
          (∃ layers, Forall₂ (LayerRead p U i r) ts layers ∧
            result = layers.flatten.foldl putField fields) ∧
          Resolve.Asked p (p.fileOf? i.decl) Resolution.Knows
            (TypeExpr.freeNamesAll (i.typeParams.map (·.name)) ts) r
  | [], fields, _ => by
    unfold parentFields
    exact .pure fun r _ => ⟨⟨[], .nil, rfl⟩, asked_nil⟩
  | t :: ts, fields, hsupply => by
    rw [TypeExpr.freeNamesAll_cons] at hsupply
    intro r result r' h hS
    unfold parentFields at h
    obtain ⟨parent, r₁, hparent, h⟩ := gives_bind.1 h
    obtain ⟨_, _, hget, h⟩ := gives_bind.1 h
    obtain ⟨rfl, rfl⟩ := gives_get.1 hget
    obtain ⟨hS₁, hg₁, hasked₁⟩ := type_walks (fresh_walks hup) knows_upward
      henv t hsupply.left.answers _ _ _ hparent hS
    obtain ⟨hS₂, hg₂, ⟨layers, hlayers, rfl⟩, hasked₂⟩ :=
      parentFields_walks hup hobject henv ts hsupply.right _ _ _ h hS₁
    have hlayer : LayerRead p U i r₁ t ((fieldsOf r₁.graph parent).getD []) := by
      rintro e ⟨loc, name, as, rfl, hname, hkind, hplain⟩
      obtain ⟨-, -, id, args, rfl, hr⟩ :=
        named_walks hup henv hname (.inl hkind) hplain hsupply.left _ _ _ hparent hS
      refine ⟨id, args, hr, ?_⟩
      obtain hmem | ⟨u, hu⟩ := hS₁.done hr
      · right
        rw [fieldsOf_reference_none (hS₁.underWay hmem).2]
        exact ⟨rfl, hmem⟩
      · left
        obtain ⟨oid, fs, rfl⟩ := hobject (hS₁.means hr hu) hkind
        rw [fieldsOf_reference hu]
        exact ⟨oid, hu⟩
    refine ⟨hS₂, hg₁.trans hg₂, ⟨_ :: layers, .cons (layerRead_upward _ _ hg₂ hlayer) hlayers, ?_⟩, ?_⟩
    · rw [flatten_cons, foldl_append]
    · rw [TypeExpr.freeNamesAll_cons]
      exact asked_append
        (asked_upward knows_upward _ _ _ hg₂ hasked₁) hasked₂

/-- What an interface adds by its own fields, by induction on them. -/
theorem ownFields_walks (hup : ∀ d t, Upward fun r => Means d r t) {n : Nat}
    (henv : Resolve.Binds env (i.typeParams.map (·.name))) :
    ∀ (fs : List Field) {fields : List TyField},
      Supplies p Means U (instantiate p uncut n depth) (p.fileOf? i.decl)
        (fieldNames (i.typeParams.map (·.name)) fs) →
      Walks (Sound p Means U)
        (ownFields p (instantiate p uncut n depth) (p.fileOf? i.decl) env
          fields fs)
        fun result r =>
          (∃ own, Forall₂ (OwnField p i) fs own ∧ result = own.foldl putField fields) ∧
          Resolve.Asked p (p.fileOf? i.decl) Resolution.Knows
            (fieldNames (i.typeParams.map (·.name)) fs) r
  | [], fields, _ => by
    unfold ownFields
    exact .pure fun r _ => ⟨⟨[], .nil, rfl⟩, asked_nil⟩
  | f :: fs, fields, hsupply => by
    have hnames : fieldNames (i.typeParams.map (·.name)) (f :: fs) =
        (f.type.map (TypeExpr.freeNames (i.typeParams.map (·.name)))).getD [] ++
          fieldNames (i.typeParams.map (·.name)) fs := flatMap_cons
    rw [hnames] at hsupply ⊢
    intro r result r' h hS
    unfold ownFields at h
    obtain ⟨t, r₁, ht, h⟩ := gives_bind.1 h
    obtain ⟨hS₁, hg₁, hasked₁⟩ : Sound p Means U r₁ ∧ r.Grows r₁ ∧
        Resolve.Asked p (p.fileOf? i.decl) Resolution.Knows
          ((f.type.map (TypeExpr.freeNames (i.typeParams.map (·.name)))).getD []) r₁ := by
      cases htype : f.type with
      | none =>
        have hnode : Walks (Sound p Means U)
            (.unrepresentable "missing type annotation") fun _ _ => True :=
          .node (fresh_walks hup) _
        rw [htype] at ht
        obtain ⟨hS₁, hg₁, -⟩ := hnode _ _ _ ht hS
        exact ⟨hS₁, hg₁, asked_nil⟩
      | some annotation =>
        have hleft := hsupply.left
        rw [htype] at ht hleft
        exact type_walks (fresh_walks hup) knows_upward henv annotation
          hleft.answers _ _ _ ht hS
    obtain ⟨hS₂, hg₂, ⟨own, hown, rfl⟩, hasked₂⟩ :=
      ownFields_walks hup henv fs hsupply.right _ _ _ h hS₁
    refine ⟨hS₂, hg₁.trans hg₂, ⟨.mk f.name t f.optional :: own, .cons ?_ hown, rfl⟩, ?_⟩
    · exact ⟨rfl, rfl, n, depth, env, r, r₁, ht⟩
    · exact asked_append
        (asked_upward knows_upward _ _ _ hg₂ hasked₁) hasked₂

/-- What is known of the fields of an interface once its body is resolved: they are those found in
the types it extends, one put over the other, and its own put over them. -/
def BodyRead (p : Program) (U : UnderWay) (i : InterfaceDecl) (r : Resolution)
    (fs : List TyField) : Prop :=
  ∃ layers own, List.Forall₂ (LayerRead p U i r) i.parents layers ∧
    List.Forall₂ (OwnField p i) i.fields own ∧
    fs = own.foldl putField (layers.flatten.foldl putField [])

theorem interfaceBody_walks (hup : ∀ d t, Upward fun r => Means d r t)
    (hobject : ∀ {d r t}, Means d r t → d.kind = .interfaceDecl → ∃ oid fs, t = .object oid fs)
    {n : Nat} (henv : Resolve.Binds env (i.typeParams.map (·.name)))
    (hsupply : Supplies p Means U (instantiate p uncut n depth) (p.fileOf? i.decl)
      (TypeExpr.freeNamesAll (i.typeParams.map (·.name)) i.parents ++
        fieldNames (i.typeParams.map (·.name)) i.fields)) :
    Walks (Sound p Means U)
      (interfaceBody p (instantiate p uncut n depth) env i)
      fun t r => (∃ oid fs, t = .object oid fs ∧ BodyRead p U i r fs) ∧
        Resolve.Asked p (p.fileOf? i.decl) Resolution.Knows
          (TypeExpr.freeNamesAll (i.typeParams.map (·.name)) i.parents ++
            fieldNames (i.typeParams.map (·.name)) i.fields) r := by
  intro r t r' h hS
  unfold interfaceBody at h
  obtain ⟨inherited, r₁, hinherited, h⟩ := gives_bind.1 h
  obtain ⟨fields, r₂, hfields, h⟩ := gives_bind.1 h
  obtain ⟨oid, r₃, hfresh, h⟩ := gives_bind.1 h
  obtain ⟨rfl, rfl⟩ := gives_pure.1 h
  obtain ⟨hS₁, hg₁, ⟨layers, hlayers, rfl⟩, hasked₁⟩ :=
    parentFields_walks hup hobject henv i.parents hsupply.left _ _ _ hinherited hS
  obtain ⟨hS₂, hg₂, ⟨own, hown, rfl⟩, hasked₂⟩ :=
    ownFields_walks hup henv i.fields hsupply.right _ _ _ hfields hS₁
  obtain ⟨hS₃, hg₃, -⟩ := fresh_walks hup _ _ _ hfresh hS₂
  have hlater := hg₂.trans hg₃
  refine ⟨hS₃, hg₁.trans hlater, ⟨oid, _, rfl, layers, own, ?_, hown, rfl⟩, ?_⟩
  · exact hlayers.imp fun t layer hlayer => layerRead_upward _ _ hlater hlayer
  · exact asked_append
      (asked_upward knows_upward _ _ _ hlater hasked₁)
      (asked_upward knows_upward _ _ _ hg₃ hasked₂)

end Bodies

/-! ## How a reference comes to be shared -/

namespace Resolve

/-- How a shared reference comes about once its parameters are bound: it is found, or nested too
deep, or made and shared before its body is resolved. -/
inductive Shares (deep : Declaration → Resolve Ty) (depth : Nat) (d : Declaration)
    (body : Env → Resolve Ty) (env : Env) (bound : List Ty) : Resolution → Ty → Resolution → Prop
  | found {r : Resolution} {t : Ty} (h : r.find? (sharedKey d bound) = some t) :
      Shares deep depth d body env bound r t r
  | deep {r r' : Resolution} {t : Ty} (hnew : r.find? (sharedKey d bound) = none)
      (hdepth : maxDepth ≤ depth) (h : Gives (deep d) r t r') :
      Shares deep depth d body env bound r t r'
  | made {r r' : Resolution} {target : Ty} (hnew : r.find? (sharedKey d bound) = none)
      (hbody : Gives (body env) (Sound.opened r d bound) target r') :
      Shares deep depth d body env bound r (.reference r.graph.next d bound [])
        (Sound.closed r' r.graph.next target)

theorem shares_of_share {deep : Declaration → Resolve Ty} {body : Env → Resolve Ty} {env : Env}
    {bound : List Ty} {r' : Resolution} (h : Gives (share deep depth d bound (body env)) r t r') :
    Shares deep depth d body env bound r t r' := by
  unfold share at h
  dsimp only at h
  obtain ⟨_, _, hget, h⟩ := gives_bind.1 h
  obtain ⟨rfl, rfl⟩ := gives_get.1 hget
  cases hfind : r.find? (sharedKey d bound) with
  | some u =>
    simp only [hfind] at h
    obtain ⟨rfl, rfl⟩ := gives_pure.1 h
    exact .found hfind
  | none =>
    simp only [hfind] at h
    split at h
    · next hdepth => exact .deep hfind hdepth h
    · obtain ⟨id, r₂, hfresh, h⟩ := gives_bind.1 h
      obtain ⟨_, r₃, hshare, h⟩ := gives_bind.1 h
      obtain ⟨target, r₄, htarget, h⟩ := gives_bind.1 h
      obtain ⟨_, r₅, hset, h⟩ := gives_bind.1 h
      obtain ⟨rfl, rfl⟩ := gives_pure.1 h
      unfold fresh at hfresh
      cases hfresh
      obtain rfl := gives_modify.1 hshare
      obtain rfl := gives_modify.1 hset
      exact .made hfind htarget

theorem shares_of_gives {inst : Instantiate} {deep : Declaration → Resolve Ty}
    {params : List TypeParam} {body : Env → Resolve Ty} {r' : Resolution}
    (h : Gives (shared p inst deep depth d params args body) r t r') :
    ∃ env r₁, Gives (bindParams p inst (p.fileOf? d) [] params args) r env r₁ ∧
      Shares deep depth d body env (boundArgs env params) r₁ t r' := by
  unfold shared at h
  obtain ⟨env, r₁, henv, h⟩ := gives_bind.1 h
  exact ⟨env, r₁, henv, shares_of_share h⟩

end Resolve

/-! ## Instantiation -/

namespace Program

variable {p : Program} {d : Declaration}

theorem decl_of_interface (hp : p.Numbered) (hd : p.Declared d) (h : p.interface? d = some i) :
    i.decl = d := by
  unfold interface? at h
  obtain ⟨f, hf, hfind⟩ := exists_of_findSome?_eq_some h
  have hid : i.decl.id = d.id := by simpa using find?_some hfind
  refine hp.eq_of_id ⟨f, hf, ?_⟩ hd hid
  unfold SourceFile.declarations
  have hmem := mem_map_of_mem (f := fun j : InterfaceDecl => j.decl)
    (mem_of_find?_eq_some hfind)
  simp only [mem_append]
  exact .inl (.inl (.inr hmem))

theorem paramsOf_interface (hk : d.kind = .interfaceDecl) (h : p.interface? d = some i) :
    p.paramsOf d = i.typeParams := by
  simp [paramsOf, hk, h]

theorem bodyNames_interface (hk : d.kind = .interfaceDecl) (h : p.interface? d = some i) :
    p.bodyNames d = TypeExpr.freeNamesAll (i.typeParams.map (·.name)) i.parents ++
      fieldNames (i.typeParams.map (·.name)) i.fields := by
  simp [bodyNames, paramsOf_interface hk h, hk, h]

theorem paramsOf_alias (hk : d.kind = .aliasDecl) {a : AliasDecl} (h : p.alias? d = some a) :
    p.paramsOf d = a.typeParams := by
  simp [paramsOf, hk, h]

theorem bodyNames_alias (hk : d.kind = .aliasDecl) {a : AliasDecl} (h : p.alias? d = some a) :
    p.bodyNames d = a.type.freeNames (a.typeParams.map (·.name)) := by
  simp [bodyNames, paramsOf_alias hk h, hk, h]

end Program

/-- What is claimed of the types that declarations stand for, and of the declarations under way when
another one is asked for. -/
structure Policy (p : Program) where
  /-- What holds when a declaration is asked for while others are under way. -/
  Asks : UnderWay → Declaration → Prop
  /-- What holds of the type that a reference to a declaration stands for. -/
  Means : Declaration → Resolution → Ty → Prop
  upward : ∀ d t, Upward fun r => Means d r t
  object : ∀ {d r t}, Means d r t → d.kind = .interfaceDecl → ∃ oid fs, t = .object oid fs
  ofDefault : ∀ {U d e}, Asks U d → p.DefaultNamed d e → Asks U e
  ofBody : ∀ {U id d e}, Asks U d → p.BodyNamed d e → Asks ((id, d) :: U) e
  ofInterface : ∀ {U id d i r oid fs}, Asks U d → d.kind = .interfaceDecl → i.decl = d →
    p.interface? d = some i → Sound p Means ((id, d) :: U) r →
    BodyRead p ((id, d) :: U) i r fs → (∀ e, p.BodyNamed d e → r.Knows e) →
    Means d r (.object oid fs)
  ofAlias : ∀ {d r t}, d.kind = .aliasDecl → (∀ e, p.BodyNamed d e → r.Knows e) → Means d r t

section Instantiation

variable {p : Program} (P : Policy p) {U : UnderWay} {d : Declaration}

/-- A shared reference: found, or made with its body resolved while it is under way. -/
theorem shared_walks (hp : p.Numbered) (hd : p.Declared d) {inst : Resolve.Instantiate}
    (depth : Nat) (args : List Ty) (body : Env → Resolve Ty)
    (hdefaults : Resolve.Answers (Sound p P.Means U) p inst (p.fileOf? d) Resolution.Knows
      (defaultNames [] (p.paramsOf d)))
    (hbody : ∀ env id, Resolve.Binds env ((p.paramsOf d).map (·.name)) →
      Walks (Sound p P.Means ((id, d) :: U)) (body env) fun t r => P.Means d r t) :
    Walks (Sound p P.Means U)
      (shared p inst uncut depth d (p.paramsOf d) args body) (RefersTo d) := by
  intro r t r' h hS
  obtain ⟨env, r₁, henv, hshares⟩ := shares_of_gives h
  obtain ⟨hS₁, hg₁, hbinds⟩ := bindParams_walks (fresh_walks P.upward)
    knows_upward (p.paramsOf d) args binds_nil hdefaults _ _ _ henv hS
  rw [append_nil] at hbinds
  have hargs : p.paramsOf d = [] → boundArgs env (p.paramsOf d) = [] := by
    intro hnil
    rw [hnil]
    rfl
  generalize boundArgs env (p.paramsOf d) = bound at *
  cases hshares with
  | found hfind =>
    have hmem := mem_of_find hfind
    obtain ⟨id, e, args', heq⟩ := hS₁.entry _ hmem
    rw [Prod.mk.injEq] at heq
    obtain ⟨hkey, rfl⟩ := heq
    rw [hkey] at hmem
    have hid : d.id = e.id := congrArg Prod.fst hkey
    obtain rfl := hp.eq_of_id hd (hS₁.known hmem).1 hid
    exact ⟨hS₁, hg₁, id, args', rfl, hmem⟩
  | deep _ _ hgives => exact absurd hgives not_gives_failure
  | made hnew htarget =>
    have hopened := hS₁.opening P.upward hd hargs hnew
    obtain ⟨hS₂, hg₂, hmeans⟩ := hbody env _ hbinds _ _ _ htarget hopened
    have hU : ∀ u ∈ U, u.1 ≠ r₁.graph.next := by
      intro u hu
      obtain ⟨⟨args', hr⟩, -⟩ := hS₁.underWay hu
      exact Nat.ne_of_lt (hS₁.known hr).2.1
    obtain ⟨hS₃, hg₃⟩ := hS₂.closing P.upward hU hmeans
    have hall := ((hg₁.trans (Sound.grows_opened r₁ d bound)).trans hg₂).trans hg₃
    refine ⟨hS₃, hall, _, bound, rfl, ?_⟩
    exact (hg₂.trans hg₃).holds (Sound.holds_opened.2 (Or.inl ⟨rfl, rfl, rfl⟩))

/-- Instantiating a declaration keeps the invariant of a policy, as long as nothing is cut off. The
induction is on the bound of the recursion; a body is resolved one level deeper, a default on the
same level. -/
theorem instantiate_walks (hp : p.Numbered) : ∀ (n depth : Nat) {U : UnderWay} {d : Declaration},
    p.Declared d → P.Asks U d → ∀ args,
      Walks (Sound p P.Means U) (instantiate p uncut n depth d args) fun t r =>
        d.IsShared → RefersTo d t r
  | 0, depth, U, d, _, _, args => by
    intro r t r' h
    exact absurd h not_gives_failure
  | n + 1, depth, U, d, hd, hasks, args => by
    -- what the defaults name is asked for at the same level, what the body names inside
    have hdefaults : Supplies p P.Means U (instantiate p uncut n depth)
        (p.fileOf? d) (defaultNames [] (p.paramsOf d)) := by
      intro name hname e he args
      exact instantiate_walks hp n depth (Program.declared_of_resolve Program.fileOf_mem he)
        (P.ofDefault hasks ⟨name, hname, he⟩) args
    have hbodies : ∀ id, Supplies p P.Means ((id, d) :: U)
        (instantiate p uncut n (depth + 1)) (p.fileOf? d) (p.bodyNames d) := by
      intro id name hname e he args
      exact instantiate_walks hp n (depth + 1)
        (Program.declared_of_resolve Program.fileOf_mem he)
        (P.ofBody hasks ⟨name, hname, he⟩) args
    have hknown : ∀ {r}, Resolve.Asked p (p.fileOf? d) Resolution.Knows (p.bodyNames d) r →
        ∀ e, p.BodyNamed d e → r.Knows e := by
      rintro r hasked e ⟨name, hname, he⟩
      exact hasked name hname e he
    unfold instantiate
    cases hk : d.kind with
    | classDecl =>
      dsimp only
      cases hc : p.class? d with
      | none =>
        intro r t r' h
        exact absurd h not_gives_failure
      | some c =>
        have hparams : p.paramsOf d = c.typeParams := by
          simp [Program.paramsOf, hk, hc]
        rw [hparams] at hdefaults
        have hbind := bindParams_walks (fresh_walks P.upward)
          knows_upward c.typeParams args binds_nil hdefaults.answers
        refine .bind hbind (fun env => .node (fresh_walks P.upward) _) ?_
        intro env t r r' _ _ _ hshared
        simp [Declaration.IsShared, hk] at hshared
    | interfaceDecl =>
      dsimp only
      cases hi : p.interface? d with
      | none =>
        intro r t r' h
        exact absurd h not_gives_failure
      | some i =>
        obtain rfl := Program.decl_of_interface hp hd hi
        have hparams := Program.paramsOf_interface hk hi
        have hwalk := shared_walks P hp hd depth args
          (fun env =>
            interfaceBody p (.instantiate p uncut n (depth + 1)) env i)
          hdefaults.answers (by
            intro env id henv
            rw [hparams] at henv
            have hsupply := hbodies id
            rw [Program.bodyNames_interface hk hi] at hsupply hknown
            intro r t r' h hS
            obtain ⟨hS', hg, ⟨oid, fs, rfl, hread⟩, hasked⟩ :=
              interfaceBody_walks P.upward P.object henv hsupply _ _ _ h hS
            exact ⟨hS', hg, P.ofInterface hasks hk rfl hi hS' hread (hknown hasked)⟩)
        rw [hparams] at hwalk
        exact hwalk.weaken fun _ _ ht _ => ht
    | aliasDecl =>
      dsimp only
      cases ha : p.alias? d with
      | none =>
        intro r t r' h
        exact absurd h not_gives_failure
      | some a =>
        have hparams := Program.paramsOf_alias hk ha
        have hwalk := shared_walks P hp hd depth args
          (fun env =>
            type p (.instantiate p uncut n (depth + 1)) (p.fileOf? d)
              env a.type)
          hdefaults.answers (by
            intro env id henv
            rw [hparams] at henv
            have hsupply := hbodies id
            rw [Program.bodyNames_alias hk ha] at hsupply hknown
            exact (type_walks (fresh_walks P.upward) knows_upward henv
              a.type hsupply.answers).weaken fun _ _ hasked =>
                P.ofAlias hk (hknown hasked))
        rw [hparams] at hwalk
        exact hwalk.weaken fun _ _ ht _ => ht
    | decorator =>
      refine (Walks.node (fresh_walks P.upward) _).weaken fun _ _ _ hshared => ?_
      simp [Declaration.IsShared, hk] at hshared

end Instantiation

end Componentry
