import Componentry.Metadata.Record
import Componentry.Proofs.Guard.Compilation

/-!
# What making records does

The records of a class stand in a fixed order: its identifier, whether it is external, what its
constructor takes, what it implements, its decorators, and one configuration for each decorator
that keeps its arguments. `RecordParts.Describe` says what the values are made from: each
identifier is the one that the registry has given to a declaration that the class refers to, in the
order in which the class refers to them.

The configurations hold guards, and those refer to named guards that compiling has defined along the
way. Each function that collects parts has one lemma, which says what it returns and that it only
adds identifiers and named guards (`Compiler.Grows`). So what holds after one of them still holds
after all.

`classRecords_made` collects what is known of the records of a class: the identifier comes first, no
key occurs twice, and every name in a value is defined.
-/

namespace Componentry

open List MetaValue Compiler

open scoped List

variable {c : ClassDecl} {p : Program} {s' s : Session} {config es config' : Entries} {key : String}
  {v : MetaValue} {vs : List MetaValue} {o : MetadataOptions}

/-! ## Names in values -/

mutual

/-- The names that the guards inside a value refer to. -/
def MetaValue.refs : MetaValue → List String
  | .guard g => g.refs
  | .list items => refsItems items
  | .object entries => refsEntries entries
  | .text _ | .flag _ | .source _ => []

def MetaValue.refsItems : List MetaValue → List String
  | [] => []
  | v :: vs => v.refs ++ refsItems vs

def MetaValue.refsEntries : List (String × MetaValue) → List String
  | [] => []
  | (_, v) :: es => v.refs ++ refsEntries es

end

theorem MetaValue.mem_refsItems : ∀ {vs : List MetaValue},
    key ∈ refsItems vs ↔ ∃ v ∈ vs, key ∈ v.refs
  | [] => by simp [refsItems]
  | v :: vs => by simp [refsItems, mem_refsItems]

theorem MetaValue.mem_refsEntries : ∀ {es : List (String × MetaValue)},
    key ∈ refsEntries es ↔ ∃ e ∈ es, key ∈ e.2.refs
  | [] => by simp [refsEntries]
  | (k, v) :: es => by simp [refsEntries, mem_refsEntries]

/-- Every name in the value is defined. -/
def Compiler.Backs (c : Compiler) (v : MetaValue) : Prop := ∀ key ∈ v.refs, key ∈ c.arena.keys

/-- Every name in the values of the entries is defined. -/
def Compiler.BacksAll (c : Compiler) (es : Entries) : Prop := ∀ e ∈ es, c.Backs e.2

namespace Compiler

variable {c c' : Compiler}

theorem backs_object : c.Backs (.object es) ↔ c.BacksAll es := by
  constructor
  · intro h e he key hkey
    apply h key
    rw [refs, mem_refsEntries]
    exact ⟨e, he, hkey⟩
  · intro h key hkey
    rw [refs, mem_refsEntries] at hkey
    obtain ⟨e, he, hkey⟩ := hkey
    exact h e he key hkey

theorem backs_list : c.Backs (.list vs) ↔ ∀ v ∈ vs, c.Backs v := by
  constructor
  · intro h v hv key hkey
    apply h key
    rw [refs, mem_refsItems]
    exact ⟨v, hv, hkey⟩
  · intro h key hkey
    rw [refs, mem_refsItems] at hkey
    obtain ⟨v, hv, hkey⟩ := hkey
    exact h v hv key hkey

theorem backs_guard {g : Guard} : c.Backs (.guard g) ↔ c.Knows [] g.refs := by
  unfold Backs Knows
  simp [refs]

/-- A value without guards needs no names. -/
theorem backs_of_refs (h : v.refs = []) : c.Backs v := by
  intro key hkey
  rw [h] at hkey
  cases hkey

theorem Grows.backs (h : c.Grows [] c') (hv : c.Backs v) : c'.Backs v := by
  intro key hkey
  exact h.keys (hv key hkey)

theorem Grows.backsAll (h : c.Grows [] c') (hes : c.BacksAll es) : c'.BacksAll es := by
  intro e he
  exact h.backs (hes e he)

end Compiler

/-! ## Entries -/

namespace Entries

theorem mem_put {e : String × MetaValue} : ∀ {es : Entries},
    e ∈ es.put key v → e ∈ es ∨ e = (key, v)
  | [], h => by
    rw [put, mem_singleton] at h
    exact .inr h
  | x :: es, h => by
    rw [put] at h
    split at h
    · obtain rfl | h := mem_cons.1 h
      · exact .inr rfl
      · exact .inl (mem_cons_of_mem _ h)
    · obtain rfl | h := mem_cons.1 h
      · exact .inl mem_cons_self
      · exact (mem_put h).imp_left (mem_cons_of_mem _)

theorem mem_of_get? (h : es.get? key = some v) : (key, v) ∈ es := by
  obtain ⟨l₁, l₂, hl, -⟩ := lookup_eq_some_iff.1 h
  rw [hl]
  simp

end Entries

namespace Compiler

variable {c : Compiler}

theorem BacksAll.put (h : c.BacksAll es) (hv : c.Backs v) : c.BacksAll (es.put key v) := by
  intro e he
  obtain he | rfl := Entries.mem_put he
  · exact h e he
  · exact hv

theorem BacksAll.putFirst (h : c.BacksAll es) (hv : c.Backs v) :
    c.BacksAll (es.putFirst key v) := by
  intro e he
  obtain rfl | he := mem_cons.1 he
  · exact hv
  · exact h e (mem_of_mem_filter he)

theorem BacksAll.addGuards {omitted : List String} {guards : List FieldGuard} (h : c.BacksAll es)
    (hg : ∀ g ∈ guards, c.Knows [] g.guard.refs) : c.BacksAll (addGuards omitted es guards) := by
  unfold Componentry.addGuards
  have hsub : ∀ g ∈ guards.filter fun g => !omitted.contains g.name, c.Knows [] g.guard.refs :=
    fun g hmem => hg g (mem_of_mem_filter hmem)
  generalize guards.filter (fun g => !omitted.contains g.name) = kept at hsub
  induction kept generalizing es with
  | nil => exact h
  | cons g gs ih =>
    rw [foldl_cons]
    apply ih
    · exact h.put (backs_guard.2 (hsub g mem_cons_self))
    · intro g' hg'
      exact hsub g' (mem_cons_of_mem _ hg')

end Compiler

mutual

/-- An author's expressions hold no guards. -/
theorem Entries.refs_ofProperties : ∀ (ps : List Property) {sofar : Entries},
    (∀ e ∈ sofar, e.2.refs = []) → ∀ e ∈ Entries.ofProperties sofar ps, e.2.refs = []
  | [], sofar, h => by
    rw [Entries.ofProperties]
    exact h
  | .mk l key value :: ps, sofar, h => by
    rw [Entries.ofProperties]
    refine Entries.refs_ofProperties ps ?_
    intro e he
    obtain he | rfl := Entries.mem_put he
    · exact h e he
    · exact MetaValue.refs_ofExpr value

theorem MetaValue.refs_ofExpr : ∀ e : Expr, (ofExpr e).refs = []
  | .object l ps => by
    rw [ofExpr, refs, eq_nil_iff_forall_not_mem]
    intro key hkey
    obtain ⟨e, he, hkey⟩ := mem_refsEntries.1 hkey
    rw [Entries.refs_ofProperties ps (by simp) e he] at hkey
    cases hkey
  | .literal l v | .name l n | .self l | .parent l | .member l o n | .index l o k
  | .call l c as | .create l c as | .array l es | .arrow l ps b | .binary l op a b
  | .unary l op a | .assign l t v => by rw [ofExpr, refs]

end

theorem Compiler.backsAll_authorEntries (c : Compiler) (args : List Expr) :
    c.BacksAll (authorEntries args) := by
  unfold authorEntries
  split
  · next ps rest =>
      intro e he
      exact backs_of_refs (Entries.refs_ofProperties ps (by simp) e he)
  · intro e he
    cases he

/-! ## Steps that make guards -/

/-- The session after guards have been compiled and their warnings taken for the author. -/
def Session.warned (s : Session) (r : Resolution) (compiler : Compiler) (c : ClassDecl)
    (subject : String) : Session :=
  ⟨r, { compiler with warnings := [] }, s.warnings ++
    compiler.warnings.map fun w => c.diagnostic c.loc (.unrepresentable subject w.reason)⟩

/-- How the guards of the attributes are added to a configuration. -/
inductive AttributesEnd (p : Program) (c : ClassDecl) (config : Entries) (s : Session) :
    Entries → Session → Prop
  /-- The author has an expression for them. -/
  | kept (hauthor : ∀ attributes,
        (config.get? "attributes").getD (.object []) ≠ .object attributes) :
      AttributesEnd p c config s config s
  /-- The class has no attributes. -/
  | missing {attributes : Entries}
      (hauthor : (config.get? "attributes").getD (.object []) = .object attributes)
      {r : Resolution} (hshape : Gives (p.typeOfProperty c attributesProperty) s.resolution none r) :
      AttributesEnd p c config s (config.put "attributes" (.object attributes))
        { s with resolution := r }
  | guarded {attributes : Entries}
      (hauthor : (config.get? "attributes").getD (.object []) = .object attributes) {shape : Ty}
      {r₁ : Resolution}
      (hshape : Gives (p.typeOfProperty c attributesProperty) s.resolution (some shape) r₁)
      {guards : List FieldGuard} {compiler : Compiler}
      (hguards : Yields (memberGuards r₁.graph shape) s.compiler guards compiler)
      {omitted : List String} {r₂ : Resolution}
      (homitted : Gives (omittedAttributes p c (Entries.keys attributes)) r₁ omitted r₂) :
      AttributesEnd p c config s
        (config.put "attributes" (.object (addGuards omitted attributes guards)))
        (s.warned r₂ compiler c ("attributes of " ++ c.name))

theorem withAttributeGuards_cases (h : Yields (withAttributeGuards p c config) s config' s') :
    AttributesEnd p c config s config' s' := by
  unfold withAttributeGuards at h
  dsimp only at h
  split at h
  · next attributes hauthor =>
      obtain ⟨found, s₁, hfound, h⟩ := yields_bind.1 h
      obtain ⟨r₁, hshape, rfl⟩ := yields_resolve.1 hfound
      cases found with
      | none =>
        obtain ⟨rfl, rfl⟩ := yields_pure.1 h
        exact .missing hauthor hshape
      | some shape =>
        obtain ⟨guards, s₂, hguards, h⟩ := yields_bind.1 h
        obtain ⟨compiler, hcompiled, rfl⟩ := yields_compile.1 (yields_detail.1 hguards)
        obtain ⟨_, s₃, hwarned, h⟩ := yields_bind.1 h
        obtain rfl := yields_modify.1 hwarned
        obtain ⟨omitted, hresolved, rfl⟩ := yields_map.1 h
        obtain ⟨r₂, homitted, rfl⟩ := yields_resolve.1 hresolved
        exact .guarded hauthor hshape hcompiled homitted
  · next hauthor =>
      obtain ⟨rfl, rfl⟩ := yields_pure.1 h
      exact .kept hauthor

/-- The class has attributes, and the author gives none or an object literal of them. -/
theorem withAttributeGuards_guarded (h : Yields (withAttributeGuards p c config) s config' s')
    (hplain : ∀ v, config.get? "attributes" = some v → ∃ es, v = .object es) {shape : Ty}
    {r : Resolution}
    (hshape : Gives (p.typeOfProperty c attributesProperty) s.resolution (some shape) r) :
    ∃ attributes guards compiler omitted r', Yields (memberGuards r.graph shape) s.compiler guards
      compiler ∧ Gives (omittedAttributes p c (Entries.keys attributes)) r omitted r' ∧
      config' = config.put "attributes" (.object (addGuards omitted attributes guards)) ∧
      s' = s.warned r' compiler c ("attributes of " ++ c.name) := by
  cases withAttributeGuards_cases h with
  | kept hauthor =>
    cases hget : config.get? "attributes" with
    | none => exact absurd (by rw [hget]; rfl) (hauthor [])
    | some v =>
      obtain ⟨es, rfl⟩ := hplain v hget
      exact absurd (by rw [hget]; rfl) (hauthor es)
  | missing _ hnone => cases (hshape.unique hnone).1
  | guarded _ hsame hguards homitted =>
    obtain ⟨hshapes, rfl⟩ := hshape.unique hsame
    cases hshapes
    exact ⟨_, _, _, _, _, hguards, homitted, rfl, rfl⟩

/-- How the guard of the instance is added to a configuration. -/
inductive InstanceEnd (c : ClassDecl) (config : Entries) (s : Session) : Entries → Session → Prop
  /-- The author has one, or it is omitted, or the class has no instance type. -/
  | kept {r : Resolution} : InstanceEnd c config s config { s with resolution := r }
  | guarded (hnew : ¬ config.has "instanceGuard" = true) {r : Resolution} {t : Ty} {check : Guard}
      {compiler : Compiler} (hguard : Yields (typeGuard r.graph t) s.compiler check compiler) :
      InstanceEnd c config s (config.put "instanceGuard" (.guard check))
        (s.warned r compiler c ("instance of " ++ c.name))

theorem withInstanceGuard_cases (h : Yields (withInstanceGuard p c config) s config' s') :
    InstanceEnd c config s config' s' := by
  unfold withInstanceGuard at h
  split at h
  · obtain ⟨rfl, rfl⟩ := yields_pure.1 h
    exact .kept (r := s.resolution)
  · next hhas =>
      obtain ⟨omits, s₁, homits, h⟩ := yields_bind.1 h
      obtain ⟨r₁, -, rfl⟩ := yields_resolve.1 homits
      split at h
      · obtain ⟨rfl, rfl⟩ := yields_pure.1 h
        exact .kept
      · obtain ⟨found, s₂, hfound, h⟩ := yields_bind.1 h
        obtain ⟨r₂, -, rfl⟩ := yields_resolve.1 hfound
        cases found with
        | none =>
          obtain ⟨rfl, rfl⟩ := yields_pure.1 h
          exact .kept
        | some t =>
          obtain ⟨check, s₃, hcheck, h⟩ := yields_bind.1 h
          obtain ⟨compiler, hcompiled, rfl⟩ := yields_compile.1 (yields_detail.1 hcheck)
          obtain ⟨_, hwarned, rfl⟩ := yields_map.1 h
          obtain rfl := yields_modify.1 hwarned
          exact .guarded hhas hcompiled

theorem uidFor_grows {d : Declaration} {u : String} (h : Yields (uidFor c d) s u s') :
    s.compiler.Grows [] s'.compiler ∧ s'.compiler.ids.given? d = some u := by
  unfold uidFor at h
  rw [yields_detail, yields_compile] at h
  obtain ⟨compiler, huid, rfl⟩ := h
  obtain ⟨ids, hids, rfl⟩ := Compile.yields_uid huid
  exact ⟨.of_uid hids _, Registry.uid_given hids⟩

/-- Taking the warnings leaves the named guards alone. -/
theorem Compiler.Grows.cleared {underWay : List String} {c c' : Compiler}
    (h : c.Grows underWay c') : c.Grows underWay { c' with warnings := [] } :=
  h.trans (.of_arena_eq (.refl _) id rfl)

theorem withAttributeGuards_grows (h : Yields (withAttributeGuards p c config) s config' s')
    (hc : s.compiler.BacksAll config) :
    s.compiler.Grows [] s'.compiler ∧ s'.compiler.BacksAll config' := by
  have hbacks : ∀ {attributes}, (config.get? "attributes").getD (.object []) = .object attributes →
        s.compiler.BacksAll attributes := by
    intro attributes hauthor
    cases hget : config.get? "attributes" with
    | none =>
      rw [hget] at hauthor
      cases hauthor
      intro e he
      cases he
    | some v =>
      rw [hget] at hauthor
      obtain rfl : v = .object attributes := hauthor
      exact backs_object.1 (hc _ (Entries.mem_of_get? hget))
  cases withAttributeGuards_cases h with
  | kept hauthor => exact ⟨.refl _ _, hc⟩
  | missing hauthor hshape =>
    exact ⟨.refl _ _, hc.put (backs_object.2 (hbacks hauthor))⟩
  | guarded hauthor hshape hguards homitted =>
    obtain ⟨hgrows, hknows⟩ := memberGuards_grows hguards
    have hall := hgrows.cleared
    refine ⟨hall, (hall.backsAll hc).put (backs_object.2 ?_)⟩
    exact (hall.backsAll (hbacks hauthor)).addGuards hknows

theorem withInstanceGuard_grows (h : Yields (withInstanceGuard p c config) s config' s')
    (hc : s.compiler.BacksAll config) :
    s.compiler.Grows [] s'.compiler ∧ s'.compiler.BacksAll config' := by
  cases withInstanceGuard_cases h with
  | kept => exact ⟨.refl _ _, hc⟩
  | guarded hnew hguard =>
    obtain ⟨hgrows, hknows⟩ := typeGuard_grows hguard
    have hall := hgrows.cleared
    exact ⟨hall, (hall.backsAll hc).put (backs_guard.2 hknows)⟩

theorem decorationConfig_grows {d : ResolvedDecoration} {component : Bool}
    (h : Yields (decorationConfig p c d component) s config s') :
    s.compiler.Grows [] s'.compiler ∧ s'.compiler.BacksAll config := by
  unfold decorationConfig at h
  split at h
  · obtain ⟨rfl, rfl⟩ := yields_pure.1 h
    refine ⟨.refl _ _, ?_⟩
    intro e he
    obtain rfl | he := mem_cons.1 he
    · exact backs_of_refs (by simp [refs])
    · obtain rfl := mem_singleton.1 he
      rw [backs_list]
      intro v hv
      obtain ⟨a, -, rfl⟩ := mem_map.1 hv
      exact backs_of_refs (by simp [refs])
  · have hauthor := s.compiler.backsAll_authorEntries d.args
    cases component with
    | false =>
      obtain ⟨_, _, hp, h⟩ := yields_bind.1 h
      obtain ⟨rfl, rfl⟩ := yields_pure.1 hp
      obtain ⟨_, _, hp, h⟩ := yields_bind.1 h
      obtain ⟨rfl, rfl⟩ := yields_pure.1 hp
      obtain ⟨rfl, rfl⟩ := yields_pure.1 h
      exact ⟨.refl _ _, hauthor.putFirst (backs_of_refs (by simp [refs]))⟩
    | true =>
      obtain ⟨config₁, s₁, h₁, h⟩ := yields_bind.1 h
      obtain ⟨config₂, h₂, rfl⟩ := yields_map.1 h
      obtain ⟨hg₁, hb₁⟩ := withAttributeGuards_grows h₁ hauthor
      obtain ⟨hg₂, hb₂⟩ := withInstanceGuard_grows h₂ hb₁
      exact ⟨hg₁.trans hg₂, hb₂.putFirst (backs_of_refs (by simp [refs]))⟩

/-! ## What the records are made from -/

/-- The values of the records of a class. -/
structure RecordParts where
  own : String
  dependencies : List String
  implemented : List String
  /-- The decorators that keep their arguments, with their configurations. -/
  configs : List (String × Entries)

/-- The parameters of the constructor of a class. -/
def ClassDecl.params (c : ClassDecl) : List Param := (c.constructor?.map (·.params)).getD []

/-- The decorators of a class that keep their arguments. -/
def ClassDecorations.withNodes (info : ClassDecorations) : List ResolvedDecoration :=
  info.decorations.filter (·.withNodes)

section Description

variable (p : Program) (o : MetadataOptions) (c : ClassDecl) (info : ClassDecorations)
  (ids : Registry)

/-- The type of the parameter names a declaration with the identifier. -/
def TakesFrom (param : Param) (uid : String) : Prop :=
  ∃ d, ids.given? d = some uid ∧
    referenced p c param.loc ("constructor parameter '" ++ param.name ++ "'") param.type = .ok d

/-- The implemented type names the declaration, which has the identifier. -/
def Implements (t : TypeExpr) (e : Declaration × String) : Prop :=
  referenced p c t.loc "implements clause" (some t) = .ok e.1 ∧ ids.given? e.1 = some e.2

/-- The decorator has the identifier, and the configuration is made for it. -/
def Configures (d : ResolvedDecoration) (e : String × Entries) : Prop :=
  ids.given? d.decl = some e.1 ∧
    ∃ s s', Yields (decorationConfig p c d (o.isComponent d)) s e.2 s'

/-- The identifiers that the lifecycle hook adds to those of the named declarations: that of its
interface, for a component that does not name it. -/
inductive HookAdds (named : List Declaration) : List String → Prop
  | plain (h : o.hasComponent info = false) : HookAdds named []
  | named {hook : Declaration} (h : o.hasComponent info = true)
      (hhook : p.resolve? (p.fileOf? c.decl) o.hookInterface = some hook)
      (hnamed : hook.id ∈ named.map (·.id)) : HookAdds named []
  | added {hook : Declaration} {uid : String} (h : o.hasComponent info = true)
      (hhook : p.resolve? (p.fileOf? c.decl) o.hookInterface = some hook)
      (hnamed : hook.id ∉ named.map (·.id)) (huid : ids.given? hook = some uid) :
      HookAdds named [uid]

/-- The parts are those of the class, with the identifiers that are given. -/
structure RecordParts.Describe (parts : RecordParts) : Prop where
  own : ids.given? c.decl = some parts.own
  /-- One identifier for each parameter, in order. -/
  dependencies : List.Forall₂ (TakesFrom p c ids) c.params parts.dependencies
  /-- The implemented types in order, and then the hook. -/
  implemented : ∃ named hook, parts.implemented = named.map (·.2) ++ hook ∧
    List.Forall₂ (Implements p c ids) c.implemented named ∧
    HookAdds p o c info ids (named.map (·.1)) hook
  /-- One configuration for each decorator that keeps its arguments, in order. -/
  configs : List.Forall₂ (Configures p o c ids) info.withNodes parts.configs

end Description

/-- The values of the records of a class by their names, in order. -/
def RecordParts.named (parts : RecordParts) (c : ClassDecl) (info : ClassDecorations) : Entries :=
  let texts (uids : List String) : MetaValue := .list (uids.map .text)
  [("identifier", .text parts.own), ("isExternal", .flag info.external)] ++
    (if c.params = [] then [] else [("dependencies", texts parts.dependencies)]) ++
    (if parts.implemented = [] then [] else [("implements", texts parts.implemented)]) ++
    (if info.decorations.any (·.withNodes) then [("decorators", texts (parts.configs.map (·.1)))]
      else []) ++
    parts.configs.map fun e => ("decorators." ++ e.1, .object e.2)

/-- The records of a class: every name with the space before it. -/
def RecordParts.records (parts : RecordParts) (space : String) (c : ClassDecl)
    (info : ClassDecorations) : List Record :=
  (parts.named c info).map fun e => ⟨space ++ ":" ++ e.1, e.2⟩

/-! ## What the steps list -/

section Steps

variable {info : ClassDecorations}

theorem namedIds_listed {α : Type} {names : α → Except Diagnostic Declaration} {as : List α}
    {named : List (Declaration × String)} (h : Yields (namedIds c names as) s named s') :
    s.compiler.Grows [] s'.compiler ∧ Forall₂ (fun a e => names a = .ok e.1 ∧
      s'.compiler.ids.given? e.1 = some e.2) as named := by
  induction as generalizing s named with
  | nil =>
    obtain ⟨rfl, rfl⟩ := yields_pure.1 h
    exact ⟨.refl _ _, .nil⟩
  | cons a as ih =>
    obtain ⟨d, s₁, hd, h⟩ := yields_bind.1 h
    obtain ⟨hnames, rfl⟩ := yields_ofExcept.1 hd
    obtain ⟨uid, s₂, huid, h⟩ := yields_bind.1 h
    obtain ⟨rest, hrest, rfl⟩ := yields_map.1 h
    obtain ⟨hgrows, hlisted⟩ := ih hrest
    obtain ⟨hfirst, hgiven⟩ := uidFor_grows huid
    exact ⟨hfirst.trans hgrows, .cons ⟨hnames, hgrows.ids.given hgiven⟩ hlisted⟩

theorem dependencyIds_listed {params : List Param} (h : Yields (dependencyIds p c params) s vs s') :
    s.compiler.Grows [] s'.compiler ∧
      ∃ us, vs = us.map .text ∧ Forall₂ (TakesFrom p c s'.compiler.ids) params us := by
  obtain ⟨named, hnamed, rfl⟩ := yields_map.1 h
  obtain ⟨hgrows, hlisted⟩ := namedIds_listed hnamed
  refine ⟨hgrows, named.map (·.2), map_map.symm, ?_⟩
  rw [forall₂_map_right_iff]
  exact hlisted.imp fun param e ⟨hd, hgiven⟩ => ⟨e.1, hgiven, hd⟩

theorem hookId_listed {known : List Declaration} (hcomponent : o.hasComponent info = true)
    (h : Yields (hookId p o c known) s vs s') :
    s.compiler.Grows [] s'.compiler ∧
      ∃ us, vs = us.map .text ∧ HookAdds p o c info s'.compiler.ids known us := by
  unfold hookId at h
  split at h
  · exact absurd h not_yields_throw
  · next hook hhook =>
      have hany : known.any (·.id == hook.id) = true ↔ hook.id ∈ known.map (·.id) := by
        simp
      split at h
      · next hknown =>
          obtain ⟨rfl, rfl⟩ := yields_pure.1 h
          exact ⟨.refl _ _, [], rfl, .named hcomponent hhook (hany.1 hknown)⟩
      · next hknown =>
          -- a method of the hook's name changes nothing about its interface
          have hid : Yields (do return [.text (← uidFor c hook)]) s vs s' →
              s.compiler.Grows [] s'.compiler ∧
                ∃ us, vs = us.map .text ∧ HookAdds p o c info s'.compiler.ids known us := by
            intro h
            obtain ⟨uid, huid, rfl⟩ := yields_map.1 h
            obtain ⟨hgrows, hgiven⟩ := uidFor_grows huid
            exact ⟨hgrows, [uid], rfl, .added hcomponent hhook
              (fun hmem => hknown (hany.2 hmem)) hgiven⟩
          split at h
          · split at h
            · exact hid h
            · exact absurd h not_yields_throw
          · exact hid h

theorem Implements.later {ids ids' : Registry} (h : ids.Extends ids') {t : TypeExpr}
    {e : Declaration × String} (ht : Implements p c ids t e) : Implements p c ids' t e :=
  ⟨ht.1, h.given ht.2⟩

theorem implementsIds_listed (h : Yields (implementsIds p o c info) s vs s') :
    s.compiler.Grows [] s'.compiler ∧ ∃ named hook, vs = (named.map (·.2) ++ hook).map .text ∧
        Forall₂ (Implements p c s'.compiler.ids) c.implemented named ∧
        HookAdds p o c info s'.compiler.ids (named.map (·.1)) hook := by
  obtain ⟨named, s₁, hfound, h⟩ := yields_bind.1 h
  obtain ⟨hgrows, hnamed⟩ := namedIds_listed hfound
  have htexts : named.map (fun e => text e.2) = (named.map (·.2)).map .text := map_map.symm
  rw [htexts] at h
  split at h
  · next hcomponent =>
      obtain ⟨added, s₂, hadded, h⟩ := yields_bind.1 h
      obtain ⟨rfl, rfl⟩ := yields_pure.1 h
      obtain ⟨hlater, hook, rfl, hhook⟩ := hookId_listed hcomponent hadded
      refine ⟨hgrows.trans hlater, named, hook, by rw [map_append], ?_, hhook⟩
      exact hnamed.imp fun t e ht => Implements.later hlater.ids ht
  · next hplain =>
      obtain ⟨added, s₂, hadded, h⟩ := yields_bind.1 h
      obtain ⟨rfl, rfl⟩ := yields_pure.1 hadded
      obtain ⟨rfl, rfl⟩ := yields_pure.1 h
      refine ⟨hgrows, named, [], by rw [append_nil, append_nil], hnamed, .plain ?_⟩
      exact Bool.eq_false_of_not_eq_true hplain

theorem decoratorConfigs_listed {ds : List ResolvedDecoration} {vs : Entries}
    (h : Yields (decoratorConfigs p o c ds) s vs s') :
    (s.compiler.Grows [] s'.compiler ∧ s'.compiler.BacksAll vs) ∧
      ∃ configs, vs = configs.map (fun e => (e.1, .object e.2)) ∧
        Forall₂ (Configures p o c s'.compiler.ids) (ds.filter (·.withNodes)) configs := by
  induction ds generalizing s vs with
  | nil =>
    obtain ⟨rfl, rfl⟩ := yields_pure.1 h
    exact ⟨⟨.refl _ _, by simp [Compiler.BacksAll]⟩, [], rfl, .nil⟩
  | cons d ds ih =>
    unfold decoratorConfigs at h
    split at h
    · next hd =>
        obtain ⟨uid, s₁, huid, h⟩ := yields_bind.1 h
        obtain ⟨config, s₂, hconfig, h⟩ := yields_bind.1 h
        obtain ⟨rest, hrest, rfl⟩ := yields_map.1 h
        obtain ⟨⟨hgrows, hbacked⟩, configs, rfl, hconfigs⟩ := ih hrest
        obtain ⟨hfirst, hgiven⟩ := uidFor_grows huid
        obtain ⟨hmade, hbacks⟩ := decorationConfig_grows hconfig
        have hlater := hmade.trans hgrows
        refine ⟨⟨hfirst.trans hlater, ?_⟩, (uid, config) :: configs, rfl, ?_⟩
        · exact forall_mem_cons.2
            ⟨backs_object.2 (hgrows.backsAll hbacks), hbacked⟩
        · rw [filter_cons_of_pos hd]
          exact .cons ⟨hlater.ids.given hgiven, s₁, s₂, hconfig⟩ hconfigs
    · next hd =>
        rw [filter_cons_of_neg hd]
        exact ih h

end Steps

theorem nodup_of_firstRepeated : ∀ {seen xs : List String}, firstRepeated seen xs = none →
    xs.Nodup ∧ ∀ x ∈ xs, x ∉ seen
  | seen, [], _ => by simp
  | seen, x :: xs, h => by
    rw [firstRepeated] at h
    split at h
    · cases h
    · next hx =>
        obtain ⟨hnodup, hapart⟩ := nodup_of_firstRepeated h
        have hx : x ∉ seen := by simpa using hx
        refine ⟨nodup_cons.2 ⟨fun hmem => hapart x hmem mem_cons_self, hnodup⟩, ?_⟩
        intro y hy
        obtain rfl | hy := mem_cons.1 hy
        · exact hx
        · exact fun hmem => hapart y hy (mem_cons_of_mem _ hmem)

/-! ## All parts -/

/-- The parts are collected one after the other. -/
inductive RecordParts.Made (p : Program) (o : MetadataOptions) (c : ClassDecl)
    (info : ClassDecorations) (parts : RecordParts) (s s' : Session) : Prop
  | mk {s₁ s₂ s₃ : Session} (hown : Yields (uidFor c c.decl) s parts.own s₁)
      (hdeps : Yields (dependencyIds p c c.params) s₁ (parts.dependencies.map .text) s₂)
      (himpls : Yields (implementsIds p o c info) s₂ (parts.implemented.map .text) s₃)
      (hconfigs : Yields (decoratorConfigs p o c info.decorations) s₃
        (parts.configs.map fun e => (e.1, .object e.2)) s')

namespace RecordParts

variable {info : ClassDecorations} {parts : RecordParts} {ids : Registry}

theorem texts_injective : Function.Injective (map text) :=
  map_injective_iff.2 fun u v h => by cases h; rfl

theorem objects_injective :
    Function.Injective (map fun e : String × Entries => (e.1, object e.2)) :=
  map_injective_iff.2 fun e f h => by
    obtain ⟨u, es⟩ := e
    obtain ⟨v, fs⟩ := f
    cases h
    rfl

/-- What is given along the way is given at the end. -/
theorem Made.describe (h : parts.Made p o c info s s') :
    s.compiler.Grows [] s'.compiler ∧ parts.Describe p o c info s'.compiler.ids ∧
      ∀ e ∈ parts.configs, s'.compiler.BacksAll e.2 := by
  obtain ⟨hown, hdeps, himpls, hconfigs⟩ := h
  obtain ⟨hfirst, hgiven⟩ := uidFor_grows hown
  obtain ⟨hsecond, us, hus, hlisted⟩ := dependencyIds_listed hdeps
  obtain ⟨hthird, named, hook, hnamed, hnamedIds, hhook⟩ := implementsIds_listed himpls
  obtain ⟨⟨hlast, hbacked⟩, configs, heq, hconfigIds⟩ := decoratorConfigs_listed hconfigs
  have hafter := hthird.trans hlast
  refine ⟨(hfirst.trans hsecond).trans hafter,
    ⟨(hsecond.trans hafter).ids.given hgiven, ?_, ?_, ?_⟩, ?_⟩
  · rw [texts_injective hus]
    exact hlisted.imp fun param u ⟨d, hu, hd⟩ => ⟨d, hafter.ids.given hu, hd⟩
  · refine ⟨named, hook, texts_injective hnamed, hnamedIds.imp fun t e ht => ht.later hlast.ids, ?_⟩
    cases hhook with
    | plain h => exact .plain h
    | named h hresolved hmem => exact .named h hresolved hmem
    | added h hresolved hmem huid => exact .added h hresolved hmem (hlast.ids.given huid)
  · rw [objects_injective heq]
    exact hconfigIds
  · exact fun e he => backs_object.1 (hbacked _ (mem_map_of_mem he))

theorem keys_listRecord (name : String) (items : List MetaValue) :
    (listRecord name items).map (·.1) <+ [name] := by
  unfold listRecord
  split
  · exact nil_sublist _
  · exact .refl _

/-- The keys of a record that do not depend on a decorator. -/
def fixedKeys : List String :=
  ["identifier", "isExternal", "dependencies", "implements", "decorators"]

/-- The key of a configuration is none of the fixed keys. -/
theorem configKey_notMem_fixedKeys (uid : String) : "decorators." ++ uid ∉ fixedKeys := by
  have hlist : ("decorators." ++ uid).toList = "decorators.".toList ++ uid.toList :=
    String.toList_append
  intro h
  simp only [fixedKeys, mem_cons, not_mem_nil, or_false] at h
  obtain h | h | h | h | h := h <;>
    · rw [h] at hlist
      simp at hlist

theorem nodup_fixedKeys_append {uids : List String} (h : uids.Nodup) :
    (fixedKeys ++ uids.map ("decorators." ++ ·)).Nodup := by
  rw [nodup_append]
  refine ⟨by decide, h.map ?_, ?_⟩
  · intro x y hxy
    exact String.append_right_inj _ |>.1 hxy
  · intro x hx y hy hxy
    obtain ⟨uid, -, rfl⟩ := mem_map.1 hy
    rw [hxy] at hx
    exact configKey_notMem_fixedKeys uid hx

theorem keys_spaced (space : String) (named : Entries) :
    (named.map fun e => (⟨space ++ ":" ++ e.1, e.2⟩ : Record)).map (·.key) =
      (named.map (·.1)).map (space ++ ":" ++ ·) := by
  simp

/-- The identifiers of the decorators are those of their declarations. -/
theorem Describe.given (h : parts.Describe p o c info ids) :
    (info.withNodes.map (·.decl)).map ids.given? = (parts.configs.map (·.1)).map some := by
  have hconfigs := h.configs
  generalize info.withNodes = ds at hconfigs
  generalize parts.configs = configs at hconfigs
  induction hconfigs with
  | nil => rfl
  | cons hd _ ih => rw [map_cons, map_cons, map_cons, map_cons, hd.1, ih]

theorem listRecord_texts (name : String) (us : List String) :
    listRecord name (us.map .text) = if us = [] then [] else [(name, .list (us.map .text))] := by
  cases us <;> rfl

/-- The named values as they are put together: a list stands there unless it is empty. -/
theorem Describe.named_eq (h : parts.Describe p o c info ids) : parts.named c info =
      [("identifier", .text parts.own), ("isExternal", .flag info.external)] ++
        listRecord "dependencies" (parts.dependencies.map .text) ++
        listRecord "implements" (parts.implemented.map .text) ++
        listRecord "decorators" ((parts.configs.map (·.1)).map .text) ++
        parts.configs.map fun e => ("decorators." ++ e.1, .object e.2) := by
  have hdeps : parts.dependencies = [] ↔ c.params = [] := by
    rw [← length_eq_zero_iff, ← h.dependencies.length_eq, length_eq_zero_iff]
  have hconfigs : parts.configs.map (·.1) = [] ↔ ¬ info.decorations.any (·.withNodes) = true := by
    rw [map_eq_nil_iff, ← length_eq_zero_iff, ← h.configs.length_eq,
      length_eq_zero_iff, ClassDecorations.withNodes, filter_eq_nil_iff, any_eq_true]
    simp only [not_exists, not_and]
  simp only [listRecord_texts, hdeps, hconfigs, ite_not]
  rfl

end RecordParts

section ClassRecords

variable {options : MetadataOptions} {info : ClassDecorations} {parts : RecordParts}

/-- What is left once the parts are collected: to look for a decorator that is applied twice. -/
theorem run_classRecords (h : parts.Made p options.complete c info s s') :
    (classRecords p options c info).run.run s =
      match firstRepeated [] (parts.configs.map (·.1)) with
      | some twice => some (.error (c.diagnostic c.loc
          (.invalid ("annotation " ++ twice ++ " is applied more than once"))), s')
      | none => some (.ok (parts.records options.complete.space c info), s') := by
  have hnamed := h.describe.2.1.named_eq
  obtain ⟨hown, hdeps, himpls, hconfigs⟩ := h
  have huids : (parts.configs.map fun e => (e.1, object e.2)).map (·.1) =
      parts.configs.map (·.1) := by
    rw [map_map]
    rfl
  unfold ClassDecl.params at hdeps
  unfold classRecords
  rw [hown.run_bind, hdeps.run_bind, himpls.run_bind, hconfigs.run_bind, huids]
  cases firstRepeated [] (parts.configs.map (·.1)) with
  | some twice => rfl
  | none =>
    rw [RecordParts.records, hnamed]
    simp only [map_map]
    rfl

theorem made_of_yields {records : List Record}
    (h : Yields (classRecords p options c info) s records s') :
    ∃ parts : RecordParts, parts.Made p options.complete c info s s' ∧
      (parts.configs.map (·.1)).Nodup ∧ records = parts.records options.complete.space c info := by
  have hyields := h
  obtain ⟨own, s₁, hown, h⟩ := yields_bind.1 h
  obtain ⟨deps, s₂, hdeps, h⟩ := yields_bind.1 h
  obtain ⟨impls, s₃, himpls, h⟩ := yields_bind.1 h
  obtain ⟨configs, s₄, hconfigs, h⟩ := yields_bind.1 h
  obtain ⟨-, depIds, rfl, -⟩ := dependencyIds_listed hdeps
  obtain ⟨-, named, hook, rfl, -⟩ := implementsIds_listed himpls
  obtain ⟨-, configs, rfl, -⟩ := decoratorConfigs_listed hconfigs
  have hmade : RecordParts.Made p options.complete c info
      ⟨own, depIds, named.map (·.2) ++ hook, configs⟩ s s₄ := ⟨hown, hdeps, himpls, hconfigs⟩
  have hrun := run_classRecords hmade
  rw [hyields] at hrun
  cases hrepeated : firstRepeated [] (configs.map (·.1)) with
  | some twice =>
    simp only [hrepeated] at hrun
    cases hrun
  | none =>
    simp only [hrepeated] at hrun
    cases hrun
    exact ⟨_, hmade, (nodup_of_firstRepeated hrepeated).1, rfl⟩

/-- What is known of the records of a class once they are made. -/
structure RecordsMade (compiler : Compiler) (c : ClassDecl) (records : List Record) : Prop where
  /-- The identifier of the class comes first. -/
  identified : ∃ uid space rest, compiler.ids.given? c.decl = some uid ∧
    records = ⟨space ++ ":" ++ "identifier", .text uid⟩ :: rest
  /-- No key occurs twice. -/
  nodup : (records.map (·.key)).Nodup
  /-- Every name in a value is defined. -/
  backed : ∀ r ∈ records, compiler.Backs r.value

/-- Some of the fixed keys, and one for each configuration. -/
theorem RecordParts.Describe.nodup_keys {ids : Registry} (h : parts.Describe p o c info ids)
    (huids : (parts.configs.map (·.1)).Nodup) (space : String) :
    ((parts.records space c info).map (·.key)).Nodup := by
  have hkeys := (nodup_fixedKeys_append huids).map (f := fun key => space ++ ":" ++ key)
    fun x y hxy => String.append_right_inj _ |>.1 hxy
  refine hkeys.sublist ?_
  rw [RecordParts.records, keys_spaced, h.named_eq]
  refine .map _ ?_
  simp only [map_append]
  have hconfigKeys : (parts.configs.map fun e => ("decorators." ++ e.1, object e.2)).map
      (·.1) = (parts.configs.map (·.1)).map ("decorators." ++ ·) := by simp
  rw [hconfigKeys]
  exact ((((Sublist.refl ["identifier", "isExternal"]).append
    (keys_listRecord "dependencies" _)).append (keys_listRecord "implements" _)).append
    (keys_listRecord "decorators" _)).append (.refl _)

/-- Only configurations hold guards. -/
theorem RecordParts.backs {compiler : Compiler}
    (h : ∀ e ∈ parts.configs, compiler.BacksAll e.2) (space : String) :
    ∀ r ∈ parts.records space c info, compiler.Backs r.value := by
  intro r hr
  obtain ⟨e, he, rfl⟩ := mem_map.1 hr
  have htexts : ∀ us : List String, compiler.Backs (.list (us.map .text)) := by
    intro us
    refine backs_list.2 fun v hv => backs_of_refs ?_
    obtain ⟨_, -, rfl⟩ := mem_map.1 hv
    rw [refs]
  simp only [RecordParts.named, mem_append] at he
  obtain (((he | he) | he) | he) | he := he
  · refine backs_of_refs ?_
    obtain rfl | he := mem_cons.1 he
    · rw [refs]
    · obtain rfl := mem_singleton.1 he
      rw [refs]
  · split at he
    · cases he
    · obtain rfl := mem_singleton.1 he
      exact htexts _
  · split at he
    · cases he
    · obtain rfl := mem_singleton.1 he
      exact htexts _
  · split at he
    · obtain rfl := mem_singleton.1 he
      exact htexts _
    · cases he
  · obtain ⟨config, hconfig, rfl⟩ := mem_map.1 he
    exact backs_object.2 (h config hconfig)

theorem classRecords_made {records : List Record}
    (h : Yields (classRecords p options c info) s records s') :
    s.compiler.Grows [] s'.compiler ∧ RecordsMade s'.compiler c records := by
  obtain ⟨parts, hmade, huids, rfl⟩ := made_of_yields h
  obtain ⟨hgrows, hdescribe, hbacked⟩ := hmade.describe
  exact ⟨hgrows, ⟨parts.own, options.complete.space, _, hdescribe.own, rfl⟩,
    hdescribe.nodup_keys huids _, RecordParts.backs hbacked _⟩

end ClassRecords

end Componentry
