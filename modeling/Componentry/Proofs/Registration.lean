import Componentry.Proofs.Metadata.Records
import Componentry.Proofs.Numbering
import Componentry.Proofs.Reflection

/-!
# Registration

A program that is transformed without an error can be registered. Each class brings the named guards
that were first needed for it and its own records, and nothing of this collides: classes have
different numbers, so they have different identifiers; the keys of a class are distinct; a named
guard is defined once, so it is brought by one class.

* `transformClasses_emitted` says what the work on a list of classes does: for each class, its
  records are made, and the named guards of the classes are, in order, what is added to the arena.
* `load_classes` says what registering does when nothing collides: objects and guards are put down
  in order, and nothing is refused.
* `transform_load` puts the two together for a loaded program.
-/

namespace Componentry

open List Reflection

open scoped List

variable {compiler : Compiler} {outs : List ClassOutput} {c : ClassDecl} {p : Program}
  {out : ClassOutput} {object : String} {objects : List (String × Entries)}
  {classes : List (SourceFile × ClassDecl)} {o : TransformOptions} {errors : List ReflectionError}

/-! ## What the work on classes leaves -/

theorem RecordsMade.grows {compiler' : Compiler} {records : List Record}
    (h : RecordsMade compiler c records) (hg : compiler.Grows [] compiler') :
    RecordsMade compiler' c records where
  identified := by
    obtain ⟨uid, space, rest, hgiven, hrecords⟩ := h.identified
    exact ⟨uid, space, rest, hg.ids.given hgiven, hrecords⟩
  nodup := h.nodup
  backed := fun r hr => hg.backs (h.backed r hr)

/-- What becomes of a class of a file, as far as registration is concerned. -/
structure ClassEmitted (compiler : Compiler) (fc : SourceFile × ClassDecl) (out : ClassOutput) :
    Prop where
  file : out.file = fc.1.path
  decl : out.decl.decl = fc.2.decl
  made : RecordsMade compiler fc.2 out.records

theorem ClassEmitted.grows {compiler' : Compiler} {fc : SourceFile × ClassDecl}
    (h : ClassEmitted compiler fc out) (hg : compiler.Grows [] compiler') :
    ClassEmitted compiler' fc out :=
  ⟨h.file, h.decl, h.made.grows hg⟩

theorem endsWith_identifier (space : String) :
    (space ++ ":" ++ "identifier").endsWith ":identifier" = true := by
  rw [String.endsWith_eq_endsWith_toSlice, String.Slice.endsWith_string_iff]
  refine ⟨space.toList, ?_⟩
  simp

/-- A class is registered under its identifier. -/
theorem ClassEmitted.objectId {fc : SourceFile × ClassDecl} (h : ClassEmitted compiler fc out) :
    compiler.ids.given? fc.2.decl = some out.objectId := by
  obtain ⟨uid, space, rest, hgiven, hrecords⟩ := h.made.identified
  have hid : out.objectId = uid := by
    unfold ClassOutput.objectId
    rw [hrecords, findSome?_cons]
    simp [endsWith_identifier]
  rw [hgiven, hid]

theorem hooked_decl {o : LifecycleOptions} {r : HookedClass} (h : c.hooked o = .ok r) :
    r.decl.decl = c.decl := by
  unfold ClassDecl.hooked at h
  dsimp only at h
  cases hhook : hookOf o.complete c with
  | error e =>
    rw [hhook] at h
    cases h
  | ok q =>
    rw [hhook] at h
    cases huse : firstUseBefore c.perInstance with
    | some u =>
      rw [huse] at h
      cases h
    | none =>
      rw [huse] at h
      cases h
      rfl

/-- The records of a class come out of the work on it, with the named guards that are new. -/
theorem transformClass_records {f : SourceFile} {s s' : Session}
    (h : Yields (transformClass p o f c) s out s') :
    ∃ info, decorationsOf p c = .ok info ∧
      Yields (classRecords p o.metadata c info) s out.records s' ∧ out.file = f.path ∧
      out.decl.decl = c.decl ∧
      out.guards = s'.compiler.arena.entries.drop s.compiler.arena.size := by
  unfold transformClass at h
  obtain ⟨_, _, hget, h⟩ := yields_bind.1 h
  obtain ⟨rfl, rfl⟩ := yields_get.1 hget
  obtain ⟨info, _, hfound, h⟩ := yields_bind.1 h
  obtain ⟨hinfo, rfl⟩ := yields_ofExcept.1 hfound
  obtain ⟨records, s₁, hrecords, h⟩ := yields_bind.1 h
  obtain ⟨_, _, hget, h⟩ := yields_bind.1 h
  obtain ⟨rfl, rfl⟩ := yields_get.1 hget
  split at h
  · obtain ⟨r, _, hr, h⟩ := yields_bind.1 h
    obtain ⟨hhooked, rfl⟩ := yields_ofExcept.1 hr
    obtain ⟨rfl, rfl⟩ := yields_pure.1 h
    exact ⟨info, hinfo, hrecords, rfl, hooked_decl hhooked, rfl⟩
  · obtain ⟨rfl, rfl⟩ := yields_pure.1 h
    exact ⟨info, hinfo, hrecords, rfl, rfl, rfl⟩

theorem transformClass_emitted {f : SourceFile} {s s' : Session}
    (h : Yields (transformClass p o f c) s out s') :
    s.compiler.Grows [] s'.compiler ∧ ClassEmitted s'.compiler (f, c) out ∧
      s'.compiler.arena.entries = s.compiler.arena.entries ++ out.guards := by
  obtain ⟨info, -, hrecords, hfile, hdecl, hguards⟩ := transformClass_records h
  obtain ⟨hgrows, hmade⟩ := classRecords_made hrecords
  refine ⟨hgrows, ⟨hfile, hdecl, hmade⟩, ?_⟩
  rw [hguards]
  exact (prefix_iff_eq_append.1 hgrows.entries).symm

/-- Where no class fails, the first one is done and then the others. -/
theorem transformClasses_cons {f : SourceFile} {done : List ClassOutput} {s s' : Session}
    (h : Gives (transformClasses p o done ((f, c) :: classes)) s (outs, none) s') :
    ∃ out s₁, Yields (transformClass p o f c) s out s₁ ∧
      Gives (transformClasses p o (done ++ [out]) classes) s₁ (outs, none) s' := by
  obtain ⟨result, s₁, hresult, h⟩ := gives_bind.1 h
  cases result with
  | error e =>
    obtain ⟨hfail, -⟩ := gives_pure.1 h
    cases hfail
  | ok out => exact ⟨out, s₁, hresult, h⟩

/-- The work on a list of classes, by induction on the list: every class is emitted, and what is
added to the arena is the named guards of the classes in order. -/
theorem transformClasses_emitted :
    ∀ {classes : List (SourceFile × ClassDecl)} {done outs : List ClassOutput} {s s' : Session},
      Gives (transformClasses p o done classes) s (outs, none) s' →
        ∃ new, outs = done ++ new ∧ s.compiler.Grows [] s'.compiler ∧
          Forall₂ (ClassEmitted s'.compiler) classes new ∧
          s'.compiler.arena.entries = s.compiler.arena.entries ++ new.flatMap (·.guards)
  | [], done, outs, s, s', h => by
    obtain ⟨hdone, rfl⟩ := gives_pure.1 h
    cases hdone
    exact ⟨[], by simp, .refl _ _, .nil, by simp⟩
  | (f, c) :: classes, done, outs, s, s', h => by
    obtain ⟨out, s₁, hout, h⟩ := transformClasses_cons h
    obtain ⟨hgrows, hout, hentries⟩ := transformClass_emitted hout
    obtain ⟨new, rfl, hrest, hnew, hmore⟩ := transformClasses_emitted h
    refine ⟨out :: new, by simp, hgrows.trans hrest, .cons (hout.grows hrest) hnew, ?_⟩
    rw [hmore, hentries, flatMap_cons, append_assoc]

theorem given_eq_objectIds (h : Forall₂ (ClassEmitted compiler) classes outs) :
    (classes.map fun fc => compiler.ids.given? fc.2.decl) = outs.map fun c => some c.objectId := by
  induction h with
  | nil => rfl
  | cons hout _ ih => rw [map_cons, map_cons, hout.objectId, ih]

theorem emitted_of_mem (h : Forall₂ (ClassEmitted compiler) classes outs) {c : ClassOutput}
    (hc : c ∈ outs) : ∃ fc, ClassEmitted compiler fc c := by
  induction h with
  | nil => cases hc
  | cons hout _ ih =>
    obtain rfl | hc := mem_cons.1 hc
    · exact ⟨_, hout⟩
    · exact ih hc

theorem RecordsMade.ne_nil {records : List Record} (h : RecordsMade compiler c records) :
    records ≠ [] := by
  obtain ⟨uid, space, rest, -, rfl⟩ := h.identified
  exact cons_ne_nil _ _

/-- Classes with different numbers are registered under different identifiers. -/
theorem nodup_objectIds (hd : compiler.ids.Distinct)
    (hnodup : (classes.map fun fc => fc.2.decl.id).Nodup)
    (h : Forall₂ (ClassEmitted compiler) classes outs) : (outs.map (·.objectId)).Nodup := by
  have hgiven := given_eq_objectIds h
  have hsome : ∀ fc ∈ classes, ∃ u, compiler.ids.given? fc.2.decl = some u := by
    intro fc hfc
    have hmem : compiler.ids.given? fc.2.decl ∈ outs.map fun c => some c.objectId := by
      rw [← hgiven]
      exact mem_map_of_mem hfc
    obtain ⟨out, -, hout⟩ := mem_map.1 hmem
    exact ⟨out.objectId, hout.symm⟩
  have hids : (classes.map fun fc => compiler.ids.given? fc.2.decl).Nodup := by
    unfold Nodup at hnodup ⊢
    rw [pairwise_map] at hnodup ⊢
    refine hnodup.imp_of_mem ?_
    intro a b ha hb hne heq
    obtain ⟨u, hu⟩ := hsome a ha
    exact hne (hd.eq_of_given hu (heq ▸ hu))
  rw [hgiven] at hids
  exact .of_map some (by simpa [Function.comp_def] using hids)

/-! ## Registering what does not collide -/

namespace Reflection

theorem addGuards_fold : ∀ {new guards : List (String × Guard)}, ((guards ++ new).map (·.1)).Nodup →
      new.foldl (fun s g => attempt s fun r => r.addGuard g.1 g.2) (⟨objects, guards⟩, errors) =
        (⟨objects, guards ++ new⟩, errors)
  | [], guards, _ => by simp
  | g :: new, guards, h => by
    have hnew : g.1 ∉ guards.map (·.1) := by
      intro hmem
      rw [map_append, nodup_append] at h
      exact h.2.2 g.1 hmem g.1 (by simp) rfl
    have hstep : addGuard ⟨objects, guards⟩ g.1 g.2 = .ok ⟨objects, guards ++ [g]⟩ := by
      have hfree : guard? ⟨objects, guards⟩ g.1 = none := lookup_eq_none_of_notMem hnew
      unfold addGuard
      rw [hfree]
      rfl
    rw [foldl_cons, attempt, hstep]
    rw [addGuards_fold (by simpa using h)]
    simp

/-- Objects of other names are left alone. -/
theorem append_skip {e : String × MetaValue} {rest : List (String × Entries)} :
    ∀ {objects : List (String × Entries)}, object ∉ objects.map (·.1) →
      append (objects ++ rest) object e = objects ++ append rest object e
  | [], _ => rfl
  | o :: objects, h => by
    rw [map_cons, mem_cons, not_or] at h
    have hne : (o.1 == object) = false := beq_eq_false_iff_ne.2 (Ne.symm h.1)
    rw [cons_append, append, hne, append_skip h.2]
    rfl

/-- Records with new keys are put behind the entries of the object that is registered last. -/
theorem define_fold {guards : List (String × Guard)} (hobject : object ∉ objects.map (·.1)) :
    ∀ {records : List Record} {es : Entries}, (es.map (·.1) ++ records.map (·.key)).Nodup →
      records.foldl (fun s rec => attempt s fun r => r.define object rec.key rec.value)
          (⟨objects ++ [(object, es)], guards⟩, errors) =
        (⟨objects ++ [(object, es ++ records.map fun r => (r.key, r.value))], guards⟩, errors)
  | [], es, _ => by simp
  | r :: records, es, h => by
    have hkey : r.key ∉ es.map (·.1) := by
      rw [nodup_append] at h
      intro hmem
      exact h.2.2 r.key hmem r.key (by simp) rfl
    have hstep : define ⟨objects ++ [(object, es)], guards⟩ object r.key r.value =
        .ok ⟨objects ++ [(object, es ++ [(r.key, r.value)])], guards⟩ := by
      have hfree : get? ⟨objects ++ [(object, es)], guards⟩ object r.key = none := by
        unfold get? object?
        rw [lookup_append_of_notMem hobject]
        simpa [Entries.get?] using lookup_eq_none_of_notMem hkey
      unfold define
      rw [hfree, append_skip hobject, append, beq_self_eq_true]
      rfl
    rw [foldl_cons, attempt, hstep]
    rw [define_fold hobject (by simpa using h)]
    simp

end Reflection

/-- The records of a class as the entries of an object. -/
def ClassOutput.entries (c : ClassOutput) : Entries := c.records.map fun r => (r.key, r.value)

namespace Reflection

/-- Registering a class that collides with nothing. -/
theorem loadClass_new {c : ClassOutput} {guards : List (String × Guard)}
    (hguards : ((guards ++ c.guards).map (·.1)).Nodup) (hobject : c.objectId ∉ objects.map (·.1))
    (hne : c.records ≠ []) (hkeys : (c.records.map (·.key)).Nodup) :
    loadClass (⟨objects, guards⟩, errors) c =
      (⟨objects ++ [(c.objectId, c.entries)], guards ++ c.guards⟩, errors) := by
  unfold loadClass ClassOutput.entries
  rw [addGuards_fold hguards]
  generalize c.objectId = object at hobject
  cases hrecords : c.records with
  | nil => exact absurd hrecords hne
  | cons r records =>
    rw [hrecords] at hkeys
    -- the first record makes the object
    have hstep : define ⟨objects, guards ++ c.guards⟩ object r.key r.value =
        .ok ⟨objects ++ [(object, [(r.key, r.value)])], guards ++ c.guards⟩ := by
      have hfree : get? ⟨objects, guards ++ c.guards⟩ object r.key = none := by
        unfold get? object?
        rw [lookup_eq_none_of_notMem hobject]
        rfl
      unfold define
      rw [hfree, ← append_nil objects, append_skip hobject, append_nil]
      rfl
    rw [foldl_cons, attempt, hstep]
    rw [define_fold hobject (by simpa using hkeys)]
    simp

/-- Registering classes that collide with nothing and not with each other, by induction on the
classes. -/
theorem load_classes : ∀ {outs : List ClassOutput} {objects : List (String × Entries)}
    {guards : List (String × Guard)} {errors : List ReflectionError},
    ((guards ++ outs.flatMap (·.guards)).map (·.1)).Nodup →
    (objects.map (·.1) ++ outs.map (·.objectId)).Nodup →
    (∀ c ∈ outs, c.records ≠ [] ∧ (c.records.map (·.key)).Nodup) →
    outs.foldl loadClass (⟨objects, guards⟩, errors) =
      (⟨objects ++ outs.map fun c => (c.objectId, c.entries), guards ++ outs.flatMap (·.guards)⟩,
        errors)
  | [], objects, guards, errors, _, _, _ => by simp
  | c :: outs, objects, guards, errors, hguards, hobjects, hrecords => by
    rw [flatMap_cons, ← append_assoc] at hguards
    have hguardsHere : ((guards ++ c.guards).map (·.1)).Nodup := by
      rw [map_append] at hguards
      exact hguards.of_append_left
    have hobject : c.objectId ∉ objects.map (·.1) := by
      intro hmem
      rw [nodup_append] at hobjects
      exact hobjects.2.2 _ hmem c.objectId (by simp) rfl
    obtain ⟨hne, hkeys⟩ := hrecords c mem_cons_self
    rw [foldl_cons, loadClass_new hguardsHere hobject hne hkeys]
    rw [load_classes hguards (by simpa using hobjects)
      fun c' hc' => hrecords c' (mem_cons_of_mem _ hc')]
    simp

end Reflection

/-! ## Whole programs -/

/-- The registry that holds the records and the named guards of the classes. -/
def Reflection.ofClasses (outs : List ClassOutput) : Reflection :=
  ⟨outs.map fun c => (c.objectId, c.entries), outs.flatMap (·.guards)⟩

theorem Reflection.object_ofClasses (hids : (outs.map (·.objectId)).Nodup) {c : ClassOutput}
    (hc : c ∈ outs) : (ofClasses outs).object? c.objectId = some c.entries := by
  refine lookup_of_mem ?_ ?_
  · simpa [ofClasses, Function.comp_def] using hids
  · exact mem_map_of_mem hc

theorem Reflection.guard_isSome {r : Reflection} {a : Arena} (h : r.guards = a.entries)
    {key : String} (hkey : key ∈ a.keys) : (r.guard? key).isSome := by
  unfold guard?
  rw [h]
  exact Arena.lookup_isSome.2 hkey

/-- The run of a transformation that ends without an error. -/
theorem transform_run {out : UnitOutput} (h : transform? p o = some out) (he : out.error = none) :
    ∃ s, (transformClasses p o [] p.ownClasses).run (Session.start o.style) =
        some ((out.classes, none), s) ∧ out.arena = s.compiler.arena := by
  unfold transform? at h
  cases hrun : (transformClasses p o [] p.ownClasses).run (Session.start o.style) with
  | none =>
    rw [hrun] at h
    cases h
  | some q =>
    rw [hrun] at h
    obtain ⟨⟨classes, error⟩, s⟩ := q
    cases h
    obtain rfl : error = none := he
    exact ⟨s, rfl, rfl⟩

/-- **A transformed program registers.** However descriptions are read: for a loaded program that is
transformed without an error, registering the output refuses nothing. The objects are the
identifiers of the processed classes in order; an object has exactly the records of its class, in
their order. The guards are exactly the named guards of the transformation, each brought by one
class, and every name in a registered guard or in a guard inside a record is registered. -/
theorem transform_load {reader : Yaml.Reader} {runtime module name text : String} {p : Program}
    {o : TransformOptions} {out : UnitOutput}
    (hp : loadWith reader runtime module name text = .ok p)
    (ht : transform? p o = some out) (he : out.error = none) :
    ∃ r s, empty.load out = (r, []) ∧
      (transformClasses p o [] p.ownClasses).run (Session.start o.style) =
        some ((out.classes, none), s) ∧
      r.objectIds.map some = (p.ownClasses.map fun fc => s.compiler.ids.given? fc.2.decl) ∧
      List.Forall₂ (fun fc c => c.file = fc.1.path ∧ c.decl.decl = fc.2.decl ∧
          s.compiler.ids.given? fc.2.decl = some c.objectId ∧
          r.keys? c.objectId = some (c.records.map (·.key)) ∧
          ∀ rec ∈ c.records, r.get? c.objectId rec.key = some rec.value)
        p.ownClasses out.classes ∧
      r.guards = out.arena.entries ∧ (r.guards.map (·.1)).Nodup ∧
      r.guards = out.classes.flatMap (·.guards) ∧
      (∀ e ∈ r.guards, ∀ key ∈ e.2.refs, (r.guard? key).isSome) ∧
      ∀ c ∈ out.classes, ∀ rec ∈ c.records, ∀ key ∈ rec.value.refs, (r.guard? key).isSome := by
  obtain ⟨s, hrun, harena⟩ := transform_run ht he
  obtain ⟨new, hnew, hgrows, hall, hentries⟩ := transformClasses_emitted hrun
  rw [nil_append] at hnew
  subst hnew
  have hstart : (Session.start o.style).compiler = Compiler.empty o.style := rfl
  rw [hstart] at hgrows hentries
  have hguards : s.compiler.arena.entries = out.classes.flatMap (·.guards) := hentries
  have hkeys : s.compiler.arena.keys.Nodup := hgrows.nodup nodup_nil
  have hids := nodup_objectIds (hgrows.distinct (Registry.distinct_empty _))
    (loadWith_numbered hp).ownClasses hall
  have hmade : ∀ c ∈ out.classes, ∃ fc, ClassEmitted s.compiler fc c :=
    fun c hc => emitted_of_mem hall hc
  have hnames : ∀ key ∈ s.compiler.arena.keys,
      ((ofClasses out.classes).guard? key).isSome :=
    fun key hkey => guard_isSome hguards.symm hkey
  refine ⟨ofClasses out.classes, s, ?_, hrun, ?_, ?_, ?_, ?_, rfl, ?_, ?_⟩
  · -- nothing collides
    refine load_classes ?_ (by simpa using hids) ?_
    · rw [nil_append, ← hguards]
      exact hkeys
    · intro c hc
      obtain ⟨fc, hfc⟩ := hmade c hc
      exact ⟨hfc.made.ne_nil, hfc.made.nodup⟩
  · rw [given_eq_objectIds hall]
    simp [objectIds, ofClasses, Function.comp_def]
  · rw [forall₂_iff_zip] at hall ⊢
    refine ⟨hall.1, ?_⟩
    intro fc c hmem
    have hout := hall.2 hmem
    have hobject := object_ofClasses hids (of_mem_zip hmem).2
    refine ⟨hout.file, hout.decl, hout.objectId, ?_, ?_⟩
    · rw [keys?, hobject]
      simp [Entries.keys, ClassOutput.entries, Function.comp_def]
    · intro rec hrec
      rw [get?, hobject]
      refine lookup_of_mem ?_ (mem_map_of_mem hrec)
      simpa [ClassOutput.entries, Function.comp_def] using hout.made.nodup
  · rw [harena, hguards]
    rfl
  · show (out.classes.flatMap (·.guards) |>.map (·.1)).Nodup
    rw [← hguards]
    exact hkeys
  · intro e he key hkey
    have he : e ∈ s.compiler.arena.entries := by
      rw [hguards]
      exact he
    obtain he | hknows := hgrows.closed e he
    · cases he
    · obtain hkey | hkey := hknows key hkey
      · exact hnames key hkey
      · cases hkey
  · intro c hc rec hrec key hkey
    obtain ⟨fc, hfc⟩ := hmade c hc
    exact hnames key (hfc.made.backed rec hrec key hkey)

/-- A runtime with one decorator for components and a base class for them. -/
def treeRuntime : String :=
  "files: [\x7bannotations: [\x7bname: Component, recognized: true, component: true, " ++
  "with_nodes: true\x7d], interfaces: [\x7bname: OnStart\x7d], classes: [\x7bname: Base, " ++
  "type_params: [A], members: [\x7bfield: 'attributes: A'\x7d]\x7d]\x7d]"

/-- A component whose attributes hold an interface that contains itself, and a plain class. -/
def treeText : String :=
  "files: [\x7bpath: a.ts, interfaces: [\x7bname: Node, fields: ['next: Node']\x7d], " ++
  "classes: [\x7bname: Tree, extends: 'Base<\x7blinks: Node\x7d>', " ++
  "annotations: [\x7bname: Component\x7d]\x7d, \x7bname: Leaf\x7d]\x7d]"

theorem transform_load_tree : ∃ p out r,
    loadWith Yaml.parse treeRuntime "" "tree.yaml" treeText = .ok p ∧ transform? p {} = some out ∧
      out.error = none ∧ out.classes.map (·.objectId) = ["a@Tree", "a@Leaf"] ∧
      empty.load out = (r, []) ∧ r.guards.map (·.1) = ["a@Node"] ∧
      ∀ e ∈ r.guards, ∀ key ∈ e.2.refs, (r.guard? key).isSome := by
  have hrun : ((loadWith Yaml.parse treeRuntime "" "tree.yaml" treeText).toOption.bind
      fun p => transform? p {}).any (fun out => out.error.isNone &&
        out.classes.map (·.objectId) == ["a@Tree", "a@Leaf"] &&
        out.arena.entries.map (·.1) == ["a@Node"]) = true := by
    decide +kernel
  rw [Option.any_eq_true] at hrun
  obtain ⟨out, hout, hfacts⟩ := hrun
  obtain ⟨p, hp, ht⟩ := Option.bind_eq_some_iff.1 hout
  have hp : loadWith Yaml.parse treeRuntime "" "tree.yaml" treeText = .ok p := by
    cases hload : loadWith Yaml.parse treeRuntime "" "tree.yaml" treeText with
    | error e =>
      rw [hload] at hp
      cases hp
    | ok q =>
      rw [hload] at hp
      cases hp
      rfl
  simp only [Bool.and_eq_true, Option.isNone_iff_eq_none, beq_iff_eq] at hfacts
  obtain ⟨⟨herror, hids⟩, hkeys⟩ := hfacts
  obtain ⟨r, s, hload, -, -, -, hguards, -, -, hrefs, -⟩ := transform_load hp ht herror
  refine ⟨p, out, r, hp, ht, herror, hids, hload, ?_, hrefs⟩
  rw [hguards]
  exact hkeys

end Componentry
