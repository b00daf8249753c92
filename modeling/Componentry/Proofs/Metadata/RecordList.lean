import Componentry.Proofs.Metadata.Records

/-!
# The list of records

The records of a class are those of its parts, in order (`RecordParts.Describe`).

The registry gives a declaration one identifier, so a decorator that is applied twice is found by
its identifier; and it gives no identifier twice, so nothing else is found (`nodup_uids_iff`). All
steps have a result, except that making a configuration resolves types (`settles_classRecords`).
-/

namespace Componentry

open List

/-! ## Identifiers of several declarations -/

namespace Registry

variable {r : Registry} {ds : List Declaration} {us : List String}

/-- Declarations with different identifiers are different. -/
theorem nodup_ids (h : ds.map r.given? = us.map some) (hus : us.Nodup) : (ds.map (·.id)).Nodup := by
  have hgiven : ds.map r.given? = (ds.map (·.id)).map fun i => r.assigned.lookup i := by
    rw [map_map]
    rfl
  rw [hgiven] at h
  have hnodup : ((ds.map (·.id)).map fun i => r.assigned.lookup i).Nodup := by
    rw [h]
    exact hus.map (Option.some_injective _)
  exact hnodup.of_map

/-- Where no identifier is given twice, the identifiers are different exactly if the declarations
are. -/
theorem nodup_uids_iff (hr : r.Distinct) (h : ds.map r.given? = us.map some) :
    us.Nodup ↔ (ds.map (·.id)).Nodup := by
  refine ⟨nodup_ids h, fun hids => ?_⟩
  induction ds generalizing us with
  | nil =>
    rw [map_nil, eq_comm, map_eq_nil_iff] at h
    rw [h]
    exact nodup_nil
  | cons d ds ih =>
    cases us with
    | nil => exact nodup_nil
    | cons u us =>
      rw [map_cons, map_cons, List.cons.injEq] at h
      rw [map_cons, nodup_cons] at hids
      refine nodup_cons.2 ⟨fun hu => hids.1 ?_, ih h.2 hids.2⟩
      -- a later declaration with the identifier of the first one would be the first one
      have hlater : some u ∈ ds.map r.given? := by
        rw [h.2]
        exact mem_map_of_mem hu
      obtain ⟨e, he, hgiven⟩ := mem_map.1 hlater
      rw [hr.eq_of_given h.1 hgiven]
      exact mem_map_of_mem he

end Registry

theorem firstRepeated_of_nodup {seen xs : List String} (h : xs.Nodup) (hseen : ∀ x ∈ xs, x ∉ seen) :
    firstRepeated seen xs = none := by
  induction xs generalizing seen with
  | nil => rfl
  | cons x xs ih =>
    rw [nodup_cons] at h
    have hx : ¬ seen.contains x = true := by
      rw [contains_iff_mem]
      exact hseen x mem_cons_self
    rw [firstRepeated, if_neg hx]
    refine ih h.2 fun y hy hmem => ?_
    rcases mem_cons.1 hmem with rfl | hmem
    · exact h.1 hy
    · exact hseen y (mem_cons_of_mem _ hy) hmem

theorem mem_of_firstRepeated {seen xs : List String} {x : String}
    (h : firstRepeated seen xs = some x) : x ∈ xs := by
  induction xs generalizing seen with
  | nil => cases h
  | cons y ys ih =>
    rw [firstRepeated] at h
    split at h
    · cases h
      exact mem_cons_self
    · exact mem_cons_of_mem _ (ih h)

/-! ## The records have a result -/

section Results

variable (p : Program) (o : MetadataOptions) (c : ClassDecl)

theorem settles_uidFor (d : Declaration) : Settles (uidFor c d) := by
  refine Settles.detail (Settles.compile fun _ => ?_) _
  refine settles_get.bind fun compiler => ?_
  split
  · exact (settles_set _).bind fun _ => settles_pure _
  · exact settles_throw _

theorem settles_namedIds {α : Type} (names : α → Except Diagnostic Declaration) (as : List α) :
    Settles (namedIds c names as) := by
  induction as with
  | nil => exact settles_pure _
  | cons a as ih =>
    refine (settles_ofExcept _).bind fun d => (settles_uidFor c d).bind fun _ => ?_
    exact ih.bind fun _ => settles_pure _

theorem settles_dependencyIds (params : List Param) : Settles (dependencyIds p c params) :=
  (settles_namedIds c _ params).bind fun _ => settles_pure _

theorem settles_hookId (known : List Declaration) : Settles (hookId p o c known) := by
  unfold hookId
  split
  · exact settles_throw _
  · next hook _ =>
      have hid := (settles_uidFor c hook).bind fun uid => settles_pure [MetaValue.text uid]
      split
      · exact settles_pure _
      · split
        · split
          · exact hid
          · exact settles_throw _
        · exact hid

theorem settles_implementsIds (info : ClassDecorations) : Settles (implementsIds p o c info) := by
  refine (settles_namedIds c _ _).bind fun named => ?_
  split
  · exact (settles_hookId p o c _).bind fun _ => settles_pure _
  · exact (settles_pure _).bind fun _ => settles_pure _

/-- Making configurations is the only work that may have no result. -/
theorem settles_decoratorConfigs {ds : List ResolvedDecoration}
    (h : ∀ d ∈ ds.filter (·.withNodes), Settles (decorationConfig p c d (o.isComponent d))) :
    Settles (decoratorConfigs p o c ds) := by
  induction ds with
  | nil => exact settles_pure _
  | cons d ds ih =>
    unfold decoratorConfigs
    split
    · next hd =>
        rw [filter_cons_of_pos hd, forall_mem_cons] at h
        refine (settles_uidFor c d.decl).bind fun _ => h.1.bind fun _ => ?_
        exact (ih h.2).bind fun _ => settles_pure _
    · next hd =>
        rw [filter_cons_of_neg hd] at h
        exact ih h

theorem settles_classRecords (options : MetadataOptions) {info : ClassDecorations}
    (h : ∀ d ∈ info.withNodes, Settles (decorationConfig p c d (options.complete.isComponent d))) :
    Settles (classRecords p options c info) := by
  refine (settles_uidFor c c.decl).bind fun _ => (settles_dependencyIds p c _).bind fun _ => ?_
  refine (settles_implementsIds p _ c info).bind fun _ => ?_
  refine (settles_decoratorConfigs p _ c h).bind fun configs => ?_
  split
  · exact settles_throw _
  · exact settles_pure _

end Results

/-- **The records of a class are a well-formed list.** If the records of a class are made, from
whatever has been given and compiled before, they are those of its parts in order, and no key
occurs twice. If two decorators that keep their arguments are one declaration, every result is a
failure, and there is one unless the types in a configuration cannot be resolved; once the parts
are collected the failure names the decorator. Nothing else stands in the way of the records where
no identifier has been given twice. -/
theorem records_listed (p : Program) (options : MetadataOptions) (c : ClassDecl)
    (info : ClassDecorations) (s : Session) :
    (∀ records s', Yields (classRecords p options c info) s records s' →
      (∃ parts : RecordParts, parts.Describe p options.complete c info s'.compiler.ids ∧
        records = parts.records options.complete.space c info) ∧
      (records.map (·.key)).Nodup) ∧
    (¬ (info.withNodes.map (·.decl.id)).Nodup →
      (∀ result s', (classRecords p options c info).run.run s = some (result, s') →
        ∃ e, result = .error e) ∧
      ((∀ d ∈ info.withNodes, Settles (decorationConfig p c d (options.complete.isComponent d))) →
        ∃ e s', (classRecords p options c info).run.run s = some (.error e, s')) ∧
      ∀ (parts : RecordParts) s', parts.Made p options.complete c info s s' →
        ∃ d ∈ info.withNodes, ∃ twice, s'.compiler.ids.given? d.decl = some twice ∧
          (classRecords p options c info).run.run s = some (.error (c.diagnostic c.loc
            (.invalid ("annotation " ++ twice ++ " is applied more than once"))), s')) ∧
    ((info.withNodes.map (·.decl.id)).Nodup → s.compiler.ids.Distinct →
      ∀ (parts : RecordParts) s', parts.Made p options.complete c info s s' →
        Yields (classRecords p options c info) s
          (parts.records options.complete.space c info) s') := by
  have hids : (info.withNodes.map (·.decl)).map (·.id) = info.withNodes.map (·.decl.id) := by
    rw [map_map]
    rfl
  rw [← hids]
  have hfails : ¬ ((info.withNodes.map (·.decl)).map (·.id)).Nodup → ∀ result s',
      (classRecords p options c info).run.run s = some (result, s') → ∃ e, result = .error e := by
    intro hrepeated result s' h
    cases result with
    | error e => exact ⟨e, rfl⟩
    | ok records =>
      obtain ⟨parts, hmade, huids, -⟩ := made_of_yields h
      exact absurd (Registry.nodup_ids hmade.describe.2.1.given huids) hrepeated
  refine ⟨fun records s' h => ?_, fun hrepeated => ⟨hfails hrepeated, fun hconfigs => ?_,
    fun parts s' h => ?_⟩, fun hnodup hdistinct parts s' h => ?_⟩
  · obtain ⟨parts, hmade, -, hrecords⟩ := made_of_yields h
    exact ⟨⟨parts, hmade.describe.2.1, hrecords⟩, (classRecords_made h).2.nodup⟩
  · obtain ⟨result, s', hrun⟩ := settles_classRecords p c options hconfigs s
    obtain ⟨e, rfl⟩ := hfails hrepeated result s' hrun
    exact ⟨e, s', hrun⟩
  · have hgiven := h.describe.2.1.given
    cases hfirst : firstRepeated [] (parts.configs.map (·.1)) with
    | none =>
      have huids := (nodup_of_firstRepeated hfirst).1
      exact absurd (Registry.nodup_ids hgiven huids) hrepeated
    | some twice =>
      have hmem : some twice ∈ (info.withNodes.map (·.decl)).map s'.compiler.ids.given? := by
        rw [hgiven]
        exact mem_map_of_mem (mem_of_firstRepeated hfirst)
      rw [map_map] at hmem
      obtain ⟨d, hd, hu⟩ := mem_map.1 hmem
      refine ⟨d, hd, twice, hu, ?_⟩
      rw [run_classRecords h, hfirst]
  · have hids := h.describe.1.distinct hdistinct
    have huids := (Registry.nodup_uids_iff hids h.describe.2.1.given).2 hnodup
    unfold Yields
    rw [run_classRecords h, firstRepeated_of_nodup huids (by simp)]

/-! ## A lamp -/

namespace Lamps

/-- The decorator of components as a lamp carries it. -/
def component : ResolvedDecoration :=
  ⟨"Component", ⟨4, "Component", .decorator, "a.ts", .nowhere⟩, [], true, true, true, .nowhere⟩

/-- Another decorator of lamps. -/
def tag : ResolvedDecoration :=
  ⟨"Tag", ⟨5, "Tag", .decorator, "a.ts", .nowhere⟩, [], false, false, true, .nowhere⟩

/-- A lamp that takes a plug, is lit, and carries decorators. -/
def lamp (ds : List ResolvedDecoration) : ClassDecl where
  decl := ⟨0, "Lamp", .classDecl, "a.ts", .nowhere⟩
  typeParams := []
  parent := none
  implemented := [.reference .nowhere "Lit" []]
  decorations := ds.map fun d => ⟨d.name, d.args, d.loc⟩
  members := [.constructor ⟨.nowhere,
    [.mk .nowhere none "plug" false (some (.reference .nowhere "Plug" []))], []⟩]

/-- The one file with the lamp. -/
def program (ds : List ResolvedDecoration) : Program where
  files := [{
    path := "a.ts"
    external := false
    ambient := false
    classes := [lamp ds]
    interfaces := [⟨⟨1, "Plug", .interfaceDecl, "a.ts", .nowhere⟩, [], [], [], []⟩,
      ⟨⟨2, "Lit", .interfaceDecl, "a.ts", .nowhere⟩, [], [], [], []⟩,
      ⟨⟨3, "OnStart", .interfaceDecl, "a.ts", .nowhere⟩, [], [], [], []⟩]
    aliases := []
    decorators := [⟨⟨4, "Component", .decorator, "a.ts", .nowhere⟩, true, true, true⟩,
      ⟨⟨5, "Tag", .decorator, "a.ts", .nowhere⟩, false, false, true⟩] }]

/-- Making the records of a lamp. -/
def records (ds : List ResolvedDecoration) : Work (List Record) :=
  classRecords (program ds) {} (lamp ds) ⟨false, ds⟩

/-- The keys of all records that a lamp can have. -/
def keys : List String :=
  ["flamework:identifier", "flamework:isExternal", "flamework:dependencies",
    "flamework:implements", "flamework:decorators", "flamework:decorators.a@Component",
    "flamework:decorators.a@Tag"]

end Lamps

/-- A lamp with two decorators has all records; a lamp with one decorator applied twice has none. -/
theorem records_listed_lamp : (∃ (parts : RecordParts) (s' : Session),
      parts.Made (Lamps.program [Lamps.component, Lamps.tag]) ({} : MetadataOptions).complete
        (Lamps.lamp [Lamps.component, Lamps.tag]) ⟨false, [Lamps.component, Lamps.tag]⟩
        (Session.start .path) s' ∧
      ∃ records, Yields (Lamps.records [Lamps.component, Lamps.tag]) (Session.start .path)
        records s' ∧ records.map (·.key) = Lamps.keys) ∧
    ∃ e s', (Lamps.records [Lamps.tag, Lamps.tag]).run.run (Session.start .path) =
      some (.error e, s') := by
  constructor
  · have hkeys : (((Lamps.records [Lamps.component, Lamps.tag]).run.run
        (Session.start .path)).bind fun r => r.1.toOption.map fun records =>
          records.map (·.key)) = some Lamps.keys := by decide +kernel
    obtain ⟨⟨result, s'⟩, hrun, hresult⟩ := Option.bind_eq_some_iff.1 hkeys
    cases result with
    | error e => cases hresult
    | ok records =>
      obtain ⟨parts, hmade, -, rfl⟩ := made_of_yields hrun
      refine ⟨parts, s', hmade, _, ?_, Option.some.inj hresult⟩
      exact (records_listed _ {} _ _ _).2.2 (by decide) (Registry.distinct_empty _) parts s' hmade
  · refine ((records_listed _ {} _ _ _).2.1 (by decide)).2.1 fun d hd => ?_
    have hd : d ∈ [Lamps.tag, Lamps.tag] := hd
    obtain rfl : d = Lamps.tag := by simpa using hd
    exact settles_pure _

end Componentry
