import Componentry.Proofs.Registration
import Componentry.Unit

/-!
# Attributes and inheritance

The configuration of a component holds a guard for each of its attributes, except for those that
the superclass declares alike. Whether the superclass has a guard of its own for them is not looked
at: a superclass that is no component has none, and then no class has one
(`attribute_of_plain_base`).

What holds is said in two steps. A component has an entry for every attribute, or shares it with its
superclass (`Carries.provides`). So if every superclass with which the attribute is shared is a
component that has it among its attributes, some class on the way up has an entry for it
(`attribute_provided`), provided that the way up ends.
-/

namespace Componentry

open List Entries

variable {c : ClassDecl} {p : Program} {x key : String} {s' s : Session} {config : Entries}
  {o : TransformOptions} {d : ResolvedDecoration}

/-! ## Entries -/

namespace Entries

theorem mem_keys_put {v : MetaValue} : ∀ {es : Entries},
    x ∈ (es.put key v).keys ↔ x = key ∨ x ∈ es.keys
  | [] => by simp [put, keys]
  | e :: es => by
    have ih : x ∈ keys (put es key v) ↔ x = key ∨ x ∈ keys es := mem_keys_put
    unfold keys at ih ⊢
    unfold put
    split
    · next h =>
        have h : e.1 = key := by simpa using h
        simp [h]
    · simp only [map_cons, mem_cons, ih]
      tauto

theorem get?_put_self (key : String) (v : MetaValue) : ∀ es : Entries,
    (es.put key v).get? key = some v
  | [] => by simp [put, get?]
  | e :: es => by
    have ih := get?_put_self key v es
    unfold get? at ih ⊢
    unfold put
    split
    · simp
    · next h =>
        have h : (key == e.1) = false := by
          rw [beq_eq_false_iff_ne]
          rintro rfl
          simp at h
        rw [lookup_cons, h]
        exact ih

theorem get?_put_of_ne {other : String} (hne : other ≠ key) (v : MetaValue) : ∀ es : Entries,
    (es.put key v).get? other = es.get? other
  | [] => by simp [put, get?, hne]
  | e :: es => by
    have ih := get?_put_of_ne hne v es
    unfold get? at ih ⊢
    unfold put
    split
    · next h =>
        have h : e.1 = key := by simpa using h
        have hbeq : (other == key) = false := beq_eq_false_iff_ne.2 hne
        rw [lookup_cons, lookup_cons, h, hbeq]
    · rw [lookup_cons, lookup_cons, ih]

theorem get?_putFirst_of_ne {other : String} (hne : other ≠ key) (v : MetaValue) (es : Entries) :
    (es.putFirst key v).get? other = es.get? other := by
  unfold putFirst get?
  rw [lookup_cons, beq_eq_false_iff_ne.2 hne]
  show List.lookup other (es.filter (·.1 != key)) = List.lookup other es
  induction es with
  | nil => rfl
  | cons e es ih =>
    by_cases he : e.1 = key
    · have hbeq : (other == e.1) = false := by rw [he]; exact beq_eq_false_iff_ne.2 hne
      rw [filter_cons_of_neg (by simp [he]), lookup_cons, hbeq, ih]
    · rw [filter_cons_of_pos (by simp [he]), lookup_cons, lookup_cons, ih]

end Entries

/-- Every guard that is not omitted gets an entry, and no entry is lost. -/
theorem mem_keys_addGuards {omitted : List String} {guards : List FieldGuard}
    {attributes : Entries} :
    x ∈ keys (addGuards omitted attributes guards) ↔
      x ∈ keys attributes ∨ x ∉ omitted ∧ x ∈ guards.map (·.name) := by
  unfold addGuards
  induction guards generalizing attributes with
  | nil => simp
  | cons g gs ih =>
    by_cases hg : g.name ∈ omitted
    · rw [filter_cons_of_neg (by simpa using hg), ih]
      simp only [map_cons, mem_cons]
      constructor
      · rintro (h | ⟨h, hx⟩)
        · exact Or.inl h
        · exact Or.inr ⟨h, Or.inr hx⟩
      · rintro (h | ⟨h, rfl | hx⟩)
        · exact Or.inl h
        · exact absurd hg h
        · exact Or.inr ⟨h, hx⟩
    · rw [filter_cons_of_pos (by simpa using hg), foldl_cons, ih, mem_keys_put]
      simp only [map_cons, mem_cons]
      constructor
      · rintro ((rfl | h) | ⟨h, hx⟩)
        · exact Or.inr ⟨hg, Or.inl rfl⟩
        · exact Or.inl h
        · exact Or.inr ⟨h, Or.inr hx⟩
      · rintro (h | ⟨h, rfl | hx⟩)
        · exact Or.inl (Or.inr h)
        · exact Or.inl (Or.inl rfl)
        · exact Or.inr ⟨h, hx⟩

/-- There is a guard for every field. -/
theorem memberGuards_names {g : Graph} {t : Ty} {fields : List TyField} {c c' : Compiler}
    {guards : List FieldGuard} (hfields : fieldsOf g t = some fields)
    (h : Yields (memberGuards g t) c guards c') : guards.map (·.name) = fields.map (·.name) := by
  obtain ⟨rs, hrun, rfl⟩ := (yields_memberGuards hfields).1 h
  obtain ⟨names, hrun⟩ := hrun.run
  have hlength := hrun.length_eq
  rw [length_map] at hlength
  calc ((fields.zip rs).map fun p => p.1.member p.2).map (·.name)
      = ((fields.zip rs).map (·.1)).map (·.name) := by simp [Function.comp_def, TyField.member]
    _ = fields.map (·.name) := by rw [map_fst_zip hlength.ge]

/-! ## One component -/

/-- The decorator is one of the runtime, marks components and keeps its arguments. -/
structure MetadataOptions.Completes (o : MetadataOptions) (d : ResolvedDecoration) : Prop where
  recognized : d.recognized = true
  withNodes : d.withNodes = true
  component : o.complete.isComponent d = true

/-- The author gives no attributes to the decorator, or an object literal of them. -/
def ResolvedDecoration.LeavesAttributes (d : ResolvedDecoration) : Prop :=
  ∀ v, (authorEntries d.args).get? "attributes" = some v → ∃ es, v = .object es

/-- The names of the attributes that a configuration has entries for. -/
def Entries.attributeNames (config : Entries) : List String :=
  match config.get? "attributes" with
  | some (.object attributes) => keys attributes
  | _ => []

/-- When `r` is resolved, the attributes of the class have a field of the name. -/
def Program.HasField (p : Program) (c : ClassDecl) (r : Resolution) (x : String) : Prop :=
  ∃ shape r' fields, Gives (p.typeOfProperty c attributesProperty) r (some shape) r' ∧
    fieldsOf r'.graph shape = some fields ∧ x ∈ fields.map (·.name)

/-- When `r` is resolved, the class has an attribute that its superclass declares with the same
type: both types are taken after the one that the guards are made for. -/
def Program.SharesAttribute (p : Program) (c : ClassDecl) (r : Resolution) (parent : ClassDecl)
    (x : String) : Prop :=
  p.superclass? c = some parent ∧ ∃ shape r₁ own base r₂ fields others,
    Gives (p.typeOfProperty c attributesProperty) r (some shape) r₁ ∧
      Gives (inheritedProperty p c attributesProperty) r₁ (some (own, base)) r₂ ∧
      fieldsOf r₂.graph own = some fields ∧ fieldsOf r₂.graph base = some others ∧
      ∃ f ∈ fields, ∃ o ∈ others, f.name = x ∧ o.name = x ∧ o.optional = f.optional ∧
        f.type.same o.type = true

theorem mem_commonFields {fields others : List TyField} (h : x ∈ commonFields fields others) :
    ∃ f ∈ fields, ∃ o ∈ others, f.name = x ∧ o.name = x ∧ o.optional = f.optional ∧
      f.type.same o.type = true := by
  obtain ⟨f, hf, rfl⟩ := mem_map.1 h
  obtain ⟨hf, hany⟩ := mem_filter.1 hf
  obtain ⟨o, ho, hsame⟩ := any_eq_true.1 hany
  simp only [Bool.and_eq_true, beq_iff_eq] at hsame
  exact ⟨f, hf, o, ho, rfl, hsame.1.1, hsame.1.2, hsame.2⟩

/-- An attribute is omitted because the author gives it, or because the superclass shares it. -/
theorem mem_omittedAttributes {explicit omitted : List String} {r r₁ r' : Resolution} {shape : Ty}
    (hshape : Gives (p.typeOfProperty c attributesProperty) r (some shape) r₁)
    (h : Gives (omittedAttributes p c explicit) r₁ omitted r') (hx : x ∈ omitted) :
    x ∈ explicit ∨ ∃ parent, p.SharesAttribute c r parent x := by
  obtain ⟨found, r₂, hfound, h⟩ := gives_bind.1 h
  cases found with
  | none =>
    obtain ⟨rfl, rfl⟩ := gives_pure.1 h
    exact Or.inl hx
  | some pair =>
    obtain ⟨own, base⟩ := pair
    obtain ⟨r₂, r₃, hget, h⟩ := gives_bind.1 h
    obtain ⟨rfl, rfl⟩ := gives_get.1 hget
    dsimp only at h
    split at h
    · next fields others hown hbase =>
        obtain ⟨rfl, rfl⟩ := gives_pure.1 h
        obtain hx | hx := mem_append.1 hx
        · exact Or.inl hx
        · obtain ⟨parent, hparent⟩ : ∃ parent, p.superclass? c = some parent := by
            unfold inheritedProperty at hfound
            split at hfound
            · obtain ⟨hnone, -⟩ := gives_pure.1 hfound
              cases hnone
            · next parent hparent => exact ⟨parent, hparent⟩
          exact Or.inr ⟨parent, hparent, shape, r₁, own, base, _, fields, others, hshape, hfound,
            hown, hbase, mem_commonFields hx⟩
    · obtain ⟨rfl, rfl⟩ := gives_pure.1 h
      exact Or.inl hx

/-- The attributes of a component have entries, or are shared with the superclass. -/
theorem withAttributeGuards_attribute {config' : Entries}
    (h : Yields (withAttributeGuards p c config) s config' s')
    (hplain : ∀ v, config.get? "attributes" = some v → ∃ es, v = .object es)
    (hx : p.HasField c s.resolution x) :
    x ∈ config'.attributeNames ∨ ∃ parent, p.SharesAttribute c s.resolution parent x := by
  obtain ⟨shape, r', fields, hshape, hfields, hmem⟩ := hx
  obtain ⟨attributes, guards, _, omitted, _, hguards, homitted, rfl, -⟩ :=
    withAttributeGuards_guarded h hplain hshape
  rw [attributeNames, get?_put_self]
  by_cases homit : x ∈ omitted
  · obtain hauthor | hshared := mem_omittedAttributes hshape homitted homit
    · exact Or.inl (mem_keys_addGuards.2 (Or.inl hauthor))
    · exact Or.inr hshared
  · refine Or.inl (mem_keys_addGuards.2 (Or.inr ⟨homit, ?_⟩))
    rw [memberGuards_names hfields hguards]
    exact hmem

/-- The guard of the instance leaves the attributes alone. -/
theorem withInstanceGuard_get? {config' : Entries}
    (h : Yields (withInstanceGuard p c config) s config' s') :
    config'.get? "attributes" = config.get? "attributes" := by
  cases withInstanceGuard_cases h with
  | kept => rfl
  | guarded => exact get?_put_of_ne (by decide) _ _

theorem decorationConfig_attribute (h : Yields (decorationConfig p c d true) s config s')
    (hd : d.recognized = true) (hplain : d.LeavesAttributes) (hx : p.HasField c s.resolution x) :
    x ∈ config.attributeNames ∨ ∃ parent, p.SharesAttribute c s.resolution parent x := by
  unfold decorationConfig at h
  rw [hd] at h
  simp only [Bool.not_true, Bool.false_eq_true, if_false, if_true] at h
  obtain ⟨first, s₁, hfirst, h⟩ := yields_bind.1 h
  obtain ⟨second, hsecond, rfl⟩ := yields_map.1 h
  rw [attributeNames, get?_putFirst_of_ne (by decide),
    withInstanceGuard_get? hsecond]
  exact withAttributeGuards_attribute hfirst hplain hx

/-! ## The work on a program -/

/-- What comes before the configuration of a decorator `d` in the work on a class. The result is the
identifier of the decorator. -/
def recordsUpTo (p : Program) (options : MetadataOptions) (c : ClassDecl) (info : ClassDecorations)
    (before : List ResolvedDecoration) (d : ResolvedDecoration) : Work String := do
  let o := options.complete
  let _ ← uidFor c c.decl
  let _ ← dependencyIds p c ((c.constructor?.map (·.params)).getD [])
  let _ ← implementsIds p o c info
  let _ ← decoratorConfigs p o c before
  uidFor c d.decl

/-- The work on a program comes to the decorator `d` of a class in the state `s`. The decorator has
the identifier `uid`. -/
def Reached (p : Program) (o : TransformOptions) (c : ClassDecl) (d : ResolvedDecoration)
    (uid : String) (s : Session) : Prop :=
  ∃ f done rest outs s₁ info before after, p.ownClasses = done ++ (f, c) :: rest ∧
    Gives (transformClasses p o [] done) (Session.start o.style) (outs, none) s₁ ∧
    decorationsOf p c = .ok info ∧ info.decorations = before ++ d :: after ∧
    Yields (recordsUpTo p o.metadata c info before d) s₁ uid s

/-- The record that holds the configuration of a decorator. -/
def configRecord (o : MetadataOptions) (uid : String) (config : Entries) : Record :=
  ⟨o.complete.space ++ ":" ++ ("decorators." ++ uid), .object config⟩

theorem decoratorConfigs_made {o : MetadataOptions} (hnodes : d.withNodes = true)
    {after : List ResolvedDecoration} :
    ∀ {before : List ResolvedDecoration} {s s' : Session} {configs : Entries},
      Yields (decoratorConfigs p o c (before ++ d :: after)) s configs s' →
        ∃ first s₁ uid s₂ config s₃, Yields (decoratorConfigs p o c before) s first s₁ ∧
          Yields (uidFor c d.decl) s₁ uid s₂ ∧
          Yields (decorationConfig p c d (o.isComponent d)) s₂ config s₃ ∧
          (uid, .object config) ∈ configs
  | [], s, s', configs, h => by
    rw [nil_append] at h
    unfold decoratorConfigs at h
    rw [if_pos hnodes] at h
    obtain ⟨uid, s₁, huid, h⟩ := yields_bind.1 h
    obtain ⟨config, s₂, hconfig, h⟩ := yields_bind.1 h
    obtain ⟨rest, s₃, -, h⟩ := yields_bind.1 h
    obtain ⟨rfl, rfl⟩ := yields_pure.1 h
    exact ⟨[], s, uid, s₁, config, s₂, yields_pure.2 ⟨rfl, rfl⟩, huid, hconfig, mem_cons_self⟩
  | e :: before, s, s', configs, h => by
    rw [cons_append] at h
    unfold decoratorConfigs at h
    split at h
    · next he =>
        obtain ⟨uid, s₁, huid, h⟩ := yields_bind.1 h
        obtain ⟨config, s₂, hconfig, h⟩ := yields_bind.1 h
        obtain ⟨rest, hrest, rfl⟩ := yields_map.1 h
        obtain ⟨first, t₁, uid', t₂, config', t₃, hfirst, huid', hconfig', hmem⟩ :=
          decoratorConfigs_made hnodes hrest
        refine ⟨(uid, .object config) :: first, t₁, uid', t₂, config', t₃, ?_, huid', hconfig',
          mem_cons_of_mem _ hmem⟩
        unfold decoratorConfigs
        rw [if_pos he]
        exact yields_bind.2 ⟨uid, s₁, huid, yields_bind.2 ⟨config, s₂, hconfig,
          yields_bind.2 ⟨first, t₁, hfirst, yields_pure.2 ⟨rfl, rfl⟩⟩⟩⟩
    · next he =>
        obtain ⟨first, t₁, uid', t₂, config', t₃, hfirst, hrest⟩ :=
          decoratorConfigs_made hnodes h
        refine ⟨first, t₁, uid', t₂, config', t₃, ?_, hrest⟩
        unfold decoratorConfigs
        rw [if_neg he]
        exact hfirst

theorem classRecords_configs {options : MetadataOptions} {info : ClassDecorations}
    {before after : List ResolvedDecoration} {records : List Record}
    (h : Yields (classRecords p options c info) s records s')
    (hd : info.decorations = before ++ d :: after) (hnodes : d.withNodes = true) :
    ∃ uid s₁ config s₂, Yields (recordsUpTo p options c info before d) s uid s₁ ∧
      Yields (decorationConfig p c d (options.complete.isComponent d)) s₁ config s₂ ∧
      configRecord options uid config ∈ records := by
  obtain ⟨parts, ⟨hown, hdeps, himpls, hconfigs⟩, -, rfl⟩ := made_of_yields h
  rw [hd] at hconfigs
  obtain ⟨first, t₁, uid, t₂, config, t₃, hfirst, huid, hconfig, hmem⟩ :=
    decoratorConfigs_made hnodes hconfigs
  refine ⟨uid, t₂, config, t₃, ?_, hconfig, ?_⟩
  · exact yields_bind.2 ⟨_, _, hown, yields_bind.2 ⟨_, _, hdeps,
      yields_bind.2 ⟨_, _, himpls, yields_bind.2 ⟨first, t₁, hfirst, huid⟩⟩⟩⟩
  · obtain ⟨e, he, heq⟩ := mem_map.1 hmem
    cases heq
    refine mem_map.2 ⟨("decorators." ++ e.1, .object e.2), ?_, rfl⟩
    exact mem_append_right _ (mem_map_of_mem he)

/-- A run over all classes comes to each of them, by induction on the classes before it. -/
theorem transformClasses_comesTo {f : SourceFile} {after : List (SourceFile × ClassDecl)} :
    ∀ {before : List (SourceFile × ClassDecl)} {done outs : List ClassOutput} {s s' : Session},
      Gives (transformClasses p o done (before ++ (f, c) :: after)) s (outs, none) s' →
        ∃ first s₁ cout s₂, Gives (transformClasses p o done before) s (done ++ first, none) s₁ ∧
          first.length = before.length ∧ Yields (transformClass p o f c) s₁ cout s₂ ∧
          ∃ rest, outs = done ++ first ++ cout :: rest
  | [], done, outs, s, s', h => by
    rw [nil_append] at h
    obtain ⟨cout, s₁, hcout, h⟩ := transformClasses_cons h
    refine ⟨[], s, cout, s₁, ?_, rfl, hcout, ?_⟩
    · rw [append_nil]
      exact gives_pure.2 ⟨rfl, rfl⟩
    · obtain ⟨rest, rfl, -⟩ := transformClasses_emitted h
      exact ⟨rest, by simp⟩
  | (f', c') :: before, done, outs, s, s', h => by
    rw [cons_append] at h
    obtain ⟨out, s₁, hout, h⟩ := transformClasses_cons h
    obtain ⟨first, s₂, cout, s₃, hfirst, hlength, hwork, rest, rfl⟩ := transformClasses_comesTo h
    refine ⟨out :: first, s₂, cout, s₃, ?_, by simp [hlength], hwork, rest, by simp⟩
    refine gives_bind.2 ⟨_, s₁, hout, ?_⟩
    simpa using hfirst

/-! ## Classes above a class -/

/-- The class is `c` or above it on the chain of superclasses. -/
inductive Program.UpTo (p : Program) (c : ClassDecl) : ClassDecl → Prop where
  | self : UpTo p c c
  | up {k parent : ClassDecl} (h : UpTo p c k) (hparent : p.superclass? k = some parent) :
      UpTo p c parent

theorem Program.UpTo.of_parent {parent k : ClassDecl} (hparent : p.superclass? c = some parent)
    (h : p.UpTo parent k) : p.UpTo c k := by
  induction h with
  | self => exact .up .self hparent
  | up _ hk ih => exact .up ih hk

/-- The chain of superclasses ends. -/
inductive Program.Ends (p : Program) : ClassDecl → Prop where
  | top {c : ClassDecl} (h : p.superclass? c = none) : Ends p c
  | up {c parent : ClassDecl} (hparent : p.superclass? c = some parent) (h : Ends p parent) :
      Ends p c

/-- The class is a processed component whose attributes are its own to guard, and they have a field
of the name when the work comes to them. -/
structure Carries (p : Program) (o : TransformOptions) (c : ClassDecl) (x : String) : Prop where
  processed : ∃ f, (f, c) ∈ p.ownClasses
  decorated : ∃ info d, decorationsOf p c = .ok info ∧ d ∈ info.decorations ∧
    o.metadata.Completes d ∧ d.LeavesAttributes ∧
    ∀ uid s, Reached p o c d uid s → p.HasField c s.resolution x

/-- The emitted configuration of a component decorator of the class has an entry for `x`. -/
def Provides (p : Program) (o : TransformOptions) (out : UnitOutput) (c : ClassDecl) (x : String) :
    Prop :=
  ∃ f cout d uid s config, ((f, c), cout) ∈ p.ownClasses.zip out.classes ∧
    o.metadata.Completes d ∧ Reached p o c d uid s ∧
    configRecord o.metadata uid config ∈ cout.records ∧ x ∈ config.attributeNames

/-- A component has an entry for each of its attributes, or shares it with the superclass. -/
theorem Carries.provides {out : UnitOutput} (h : Carries p o c x) (ht : transform? p o = some out)
    (he : out.error = none) :
    Provides p o out c x ∨ ∃ d uid s parent, Reached p o c d uid s ∧
      p.SharesAttribute c s.resolution parent x := by
  obtain ⟨f, hc⟩ := h.processed
  obtain ⟨info, d, hinfo, hd, hkind, hplain, hfield⟩ := h.decorated
  obtain ⟨before, after, hclasses⟩ := append_of_mem hc
  obtain ⟨first, last, hdecorations⟩ := append_of_mem hd
  obtain ⟨s, hrun, -⟩ := transform_run ht he
  rw [hclasses] at hrun
  obtain ⟨outs, s₁, cout, s₂, houts, hlength, hwork, rest, hclass⟩ := transformClasses_comesTo hrun
  obtain ⟨info', hinfo', hrecords, -⟩ := transformClass_records hwork
  obtain rfl : info = info' := by
    rw [hinfo] at hinfo'
    cases hinfo'
    rfl
  obtain ⟨uid, s₄, config, s₅, hupTo, hconfig, hmem⟩ :=
    classRecords_configs hrecords hdecorations hkind.withNodes
  have hreached : Reached p o c d uid s₄ :=
    ⟨f, before, after, outs, s₁, info, first, last, hclasses, houts, hinfo, hdecorations, hupTo⟩
  rw [hkind.component] at hconfig
  obtain hx | ⟨parent, hshares⟩ :=
    decorationConfig_attribute hconfig hkind.recognized hplain (hfield uid s₄ hreached)
  · refine Or.inl ⟨f, cout, d, uid, s₄, config, ?_, hkind, hreached, hmem, hx⟩
    rw [hclasses, hclass, nil_append, zip_append hlength.symm, zip_cons_cons]
    exact mem_append_right _ mem_cons_self
  · exact Or.inr ⟨d, uid, s₄, parent, hreached, hshares⟩

/-- **Attributes are guarded somewhere.** In a program that is transformed without an error, let a
component have an attribute and let its chain of superclasses end. If each superclass with which a
class of the chain shares the attribute is a component that has the attribute too, then the
configuration of the component or of a class above it has an entry for the attribute. -/
theorem attribute_provided {p : Program} {o : TransformOptions} {out : UnitOutput} {c : ClassDecl}
    {x : String} (ht : transform? p o = some out) (he : out.error = none) (hc : Carries p o c x)
    (hends : p.Ends c)
    (hshared : ∀ k d uid s parent, p.UpTo c k → Reached p o k d uid s →
      p.SharesAttribute k s.resolution parent x → Carries p o parent x) :
    ∃ k, p.UpTo c k ∧ Provides p o out k x := by
  induction hends with
  | top hnone =>
    obtain h | ⟨_, _, _, parent, -, hparent, -⟩ := hc.provides ht he
    · exact ⟨_, .self, h⟩
    · rw [hnone] at hparent
      cases hparent
  | @up c parent hparent _ ih =>
    obtain h | ⟨d, uid, s, parent', hreached, hshares⟩ := hc.provides ht he
    · exact ⟨_, .self, h⟩
    · obtain rfl : parent = parent' := by
        have := hshares.1
        rw [hparent] at this
        cases this
        rfl
      obtain ⟨k, hk, hprovides⟩ := ih (hshared c d uid s parent .self hreached hshares)
        fun k d uid s above hk => hshared k d uid s above (hk.of_parent hparent)
      exact ⟨k, hk.of_parent hparent, hprovides⟩

/-! ## Two families of components -/

/-- A class with these attributes, and perhaps with the decorator of components. -/
def attributedClass (id : Nat) (name : String) (component : Bool) (parent : Option TypeExpr)
    (attributes : List PropertyType) : ClassDecl where
  decl := ⟨id, name, .classDecl, "a.ts", .nowhere⟩
  typeParams := []
  parent := parent
  implemented := []
  decorations := if component then [⟨"Component", [], .nowhere⟩] else []
  members := [.field
    { loc := .nowhere, name := "attributes", optional := false, static := false
      type := some (.object .nowhere attributes)
      readOnly := false, definite := false, init := none }]

namespace Doors

/-- The class `name`, with the attribute `x`. -/
def door (id : Nat) (name : String) (component : Bool) (parent : Option TypeExpr) : ClassDecl :=
  attributedClass id name component parent [.mk "x" false (.reference .nowhere "number" [])]

/-- The superclass of the family. -/
def base (component : Bool) : ClassDecl := door 0 "Base" component none

/-- A component that extends the superclass. -/
def gate : ClassDecl := door 1 "Gate" true (some (.reference .nowhere "Base" []))

/-- The one file of the family. -/
def file (component : Bool) : SourceFile where
  path := "a.ts"
  external := false
  ambient := false
  classes := [base component, gate]
  interfaces := [⟨⟨3, "OnStart", .interfaceDecl, "a.ts", .nowhere⟩, [], [], [], []⟩]
  aliases := []
  decorators := [⟨⟨2, "Component", .decorator, "a.ts", .nowhere⟩, true, true, true⟩]

/-- `Gate` extends `Base`, and both have an attribute `x`. -/
def program (component : Bool) : Program := ⟨[file component]⟩

/-- The decorator of components as a class of the family carries it. -/
def component : ResolvedDecoration where
  name := "Component"
  decl := ⟨2, "Component", .decorator, "a.ts", .nowhere⟩
  args := []
  recognized := true
  component := true
  withNodes := true
  loc := .nowhere

theorem carries (b : Bool) (hc : c = gate ∨ c = base true ∧ b = true) :
    Carries (program b) {} c "x" := by
  refine ⟨⟨file b, ?_⟩, ⟨false, [component]⟩, component, ?_, mem_cons_self,
    ⟨rfl, rfl, rfl⟩, nofun, ?_⟩
  · obtain rfl | ⟨rfl, rfl⟩ := hc
    · exact mem_cons_of_mem _ mem_cons_self
    · exact mem_cons_self
  · obtain rfl | ⟨rfl, rfl⟩ := hc
    · cases b <;> rfl
    · rfl
  · intro uid s _
    obtain rfl | ⟨rfl, rfl⟩ := hc
    · cases b <;> exact ⟨_, _, _, rfl, rfl, mem_cons_self⟩
    · exact ⟨_, _, _, rfl, rfl, mem_cons_self⟩

theorem superclass_gate (b : Bool) : (program b).superclass? gate = some (base b) := by
  cases b <;> rfl

theorem superclass_base (b : Bool) : (program b).superclass? (base b) = none := by
  cases b <;> rfl

theorem ends_gate (b : Bool) : (program b).Ends gate :=
  .up (superclass_gate b) (.top (superclass_base b))

/-- Only the superclass is above the component. -/
theorem upTo_gate {b : Bool} {k : ClassDecl} (h : (program b).UpTo gate k) :
    k = gate ∨ k = base b := by
  induction h with
  | self => exact Or.inl rfl
  | up _ hparent ih =>
    obtain rfl | rfl := ih
    · rw [superclass_gate] at hparent
      cases hparent
      exact Or.inr rfl
    · rw [superclass_base] at hparent
      cases hparent

/-- The attributes that a record of a configuration has entries for. -/
def recorded (r : Record) : List String :=
  match r.value with
  | .object config => attributeNames config
  | _ => []

end Doors

/-- Where the superclass is a component, it has the entry for the attribute that both have. -/
theorem attribute_provided_gate : ∃ out, transform? (Doors.program true) {} = some out ∧
    out.error = none ∧ Carries (Doors.program true) {} Doors.gate "x" ∧
    (Doors.program true).Ends Doors.gate ∧
    ∃ k, (Doors.program true).UpTo Doors.gate k ∧ Provides (Doors.program true) {} out k "x" := by
  have h : ((transform? (Doors.program true) {}).any (·.error.isNone)) = true := by decide +kernel
  obtain ⟨out, ht, he⟩ := Option.any_eq_true .. |>.1 h
  have he : out.error = none := by simpa using he
  refine ⟨out, ht, he, Doors.carries true (Or.inl rfl), Doors.ends_gate true,
    attribute_provided ht he (Doors.carries true (Or.inl rfl)) (Doors.ends_gate true) ?_⟩
  intro k d uid s parent hk _ hshares
  have hparent := hshares.1
  obtain rfl | rfl := Doors.upTo_gate hk
  · rw [Doors.superclass_gate] at hparent
    cases hparent
    exact Doors.carries true (Or.inr ⟨rfl, rfl⟩)
  · rw [Doors.superclass_base] at hparent
    cases hparent

/-- Where the superclass is no component, no class has an entry for the attribute that both have. -/
theorem attribute_of_plain_base : ∃ out, transform? (Doors.program false) {} = some out ∧
    out.error = none ∧ Carries (Doors.program false) {} Doors.gate "x" ∧
    (Doors.program false).Ends Doors.gate ∧
    ¬ ∃ k, (Doors.program false).UpTo Doors.gate k ∧
      Provides (Doors.program false) {} out k "x" := by
  have h : ((transform? (Doors.program false) {}).any fun out => out.error.isNone &&
      out.classes.all fun c => c.records.all fun r => !(Doors.recorded r).contains "x") = true := by
    decide +kernel
  obtain ⟨out, ht, h⟩ := Option.any_eq_true .. |>.1 h
  obtain ⟨he, hall⟩ := Bool.and_eq_true_iff.1 h
  refine ⟨out, ht, by simpa using he, Doors.carries false (Or.inl rfl), Doors.ends_gate false, ?_⟩
  rintro ⟨k, -, f, cout, d, uid, s, config, hzip, -, -, hmem, hx⟩
  have hrecord := all_eq_true.1 (all_eq_true.1 hall _ (of_mem_zip hzip).2) _ hmem
  simp [Doors.recorded, configRecord, hx] at hrecord

end Componentry
