import Componentry.Proofs.Guard.Repetition

/-!
# What the author is warned of

A part of a type that cannot be tested becomes a guard that accepts everything, and a warning is
noted. `Graph.Untested` says of a type, without any compiler, that it has such a part or leads to one
through the bodies of its references.

A compiler that is fresh warns of a type if and only if it is untested (`Compile.InTurn.warns_iff`).
That a warning has a cause is read off each step. The converse looks at the end of a run without
warnings: then the type and all bodies that have been compiled are clear of such parts, and no other
body can be entered (`Compiler.Clear.leads`).

The guards of members are made from the fields of the type, so what the fields do not show is not
warned of: `warnings_of_members` says when. A type without fields is warned of only if it is itself
unknown; behind a name or in an intersection the part is lost (`members_without_warning`).
-/

namespace Componentry

open List

section

variable {g : Graph} {uidOf : Declaration → String} {whole t : Ty} {c c' : Compiler} {ts : List Ty}

/-- What is untested in a type with fields is untested in a field that it declares. -/
theorem Graph.Shaped.untested {k : Nat} (h : g.Shaped k t) (hu : g.Untested t) :
    ∃ f, g.Declares t f ∧ g.Untested f.type := by
  induction h with
  | object =>
    obtain ⟨m, hm, hu⟩ := Ty.Composed.object.untested_iff.1 hu
    obtain ⟨f, hf, rfl⟩ := mem_map.1 hm
    exact ⟨f, .object hf, hu⟩
  | @reference k i d args bases b hb _ ih =>
    obtain ⟨u, hleads, hu⟩ := hu
    cases hleads with
    | part hpart => exact absurd hu (Graph.clear_reference (Or.inr (by rw [hb]; rfl)) u hpart)
    | body hpart hk hb' hleads =>
      cases hpart
      rw [hb] at hb'
      cases hb'
      obtain ⟨f, hf, hu⟩ := ih ⟨u, hleads, hu⟩
      exact ⟨f, .reference hb hf, hu⟩
  | intersection _ ih =>
    obtain ⟨m, hm, hu⟩ := Ty.Composed.intersection.untested_iff.1 hu
    obtain ⟨f, hf, hu⟩ := ih m hm hu
    exact ⟨f, .intersection hm hf, hu⟩

/-! ## Warnings and untested types -/

/-- Over named guards that define every name they use, from clear bodies, nothing leads to a part that
cannot be tested. By induction along the way. -/
theorem Compiler.Clear.leads (hclear : c.Clear g uidOf whole) (hagree : g.NamesAgree uidOf whole)
    (hc : c.Sound g uidOf whole []) (hclosed : ∀ e ∈ c.arena.entries, c.Knows [] e.2.refs) {u : Ty}
    (h : g.Leads t u) : g.Clear t → (∀ v : Ty, v.Part t → g.Occurs whole v) →
      c.Knows [] (t.byName g uidOf).refs → ¬ g.Untestable u := by
  induction h with
  | part hu => exact fun ht _ _ => ht _ hu
  | @body t b u i d args bases hpart hk hb _ ih =>
    intro _ hocc hknows
    have hname : g.Names uidOf whole (Compile.applicationKey (uidOf d) args) (some b) :=
      ⟨i, d, args, bases, hocc _ hpart, hk, rfl, hb⟩
    have hkey := (hknows _ (Ty.mem_refs_byName hk (by rw [hb]; rfl) hpart)).resolve_right (by simp)
    refine ih (hclear _ hkey b hname) (fun v hv => Or.inr ⟨i, b, hb, hv⟩) ?_
    obtain ⟨e, he, hekey⟩ := mem_map.1 hkey
    obtain ⟨body, hbody, hguard⟩ := hc.defined e he
    rw [hekey] at hbody
    obtain rfl : body = b := Option.some.inj (hagree hbody hname)
    rw [← hguard]
    exact hclosed e he

/-- A fresh compiler that compiles types one after another warns if and only if one is untested. -/
theorem Compile.InTurn.warns_iff (hagree : g.NamesAgree uidOf whole) {ids : Registry}
    {rs : List Guard}
    (h : InTurn (fun t => Yields (typeGuard g t)) ts ⟨ids, Arena.empty, []⟩ rs c)
    (hids : c.ids.Follows uidOf) (hocc : ∀ t ∈ ts, ∀ u : Ty, u.Part t → g.Occurs whole u) :
    c.warnings ≠ [] ↔ ∃ t ∈ ts, g.Untested t := by
  obtain ⟨names, hrun⟩ := h.run
  obtain ⟨hgrows, hknows⟩ := hrun.grows
  have hclosed : ∀ e ∈ c.arena.entries, c.Knows [] e.2.refs := fun e he =>
    (hgrows.closed e he).resolve_left (by simp [Arena.empty])
  have hstart : Compiler.Sound g uidOf whole [] ⟨ids, Arena.empty, []⟩ :=
    ⟨by simp [Arena.empty], by simp⟩
  obtain ⟨⟨hnamed, hnotes⟩, hc⟩ := hrun.byName hagree hocc hids hstart
  refine ⟨hnotes.cause, ?_⟩
  rintro ⟨t, ht, u, hleads, hu⟩ hnone
  obtain ⟨hts, hclear⟩ := hnotes.clear hnone (by simp [Compiler.Clear, Arena.keys, Arena.empty])
  refine hclear.leads hagree hc hclosed hleads (hts t ht) (hocc t ht) ?_ hu
  exact hknows _ (hnamed ▸ mem_map_of_mem ht)

/-- **Warnings of a type and of its members.** Each is compiled by a fresh compiler. The guard of the
type warns if and only if the type is untested. The guards of the members warn if and only if the
type is itself unknown, or has fields and one of these is untested. So a warning of the type is also
one of its members, if the type is unknown or has fields none of which another one has replaced.
For the attributes of a class each warning of the members is reported, as `FLM200`. -/
theorem warnings_of_members {ids ids' : Registry} {r : Guard} {guards : List FieldGuard}
    (hwhole : Yields (typeGuard g t) ⟨ids, Arena.empty, []⟩ r c)
    (hmembers : Yields (memberGuards g t) ⟨ids', Arena.empty, []⟩ guards c')
    (hids : c.ids.Follows uidOf) (hids' : c'.ids.Follows uidOf) (hagree : g.NamesAgree uidOf t) :
    (c.warnings ≠ [] ↔ g.Untested t) ∧
    (c'.warnings ≠ [] ↔ t.isUnknown = true ∨
      ∃ fields, fieldsOf g t = some fields ∧ ∃ f ∈ fields, g.Untested f.type) ∧
    (c.warnings ≠ [] → (t.isUnknown = true ∨
      ∃ fields, fieldsOf g t = some fields ∧ ∀ f, g.Declares t f → f ∈ fields) → c'.warnings ≠ []) ∧
    ∀ {p : Program} {k : ClassDecl} {config config' : Entries} {s s' : Session} {q : Resolution},
      s.compiler = ⟨ids', Arena.empty, []⟩ → q.graph = g →
      Gives (p.typeOfProperty k attributesProperty) s.resolution (some t) q →
      (∀ v, config.get? "attributes" = some v → ∃ es, v = .object es) →
      Yields (withAttributeGuards p k config) s config' s' →
      ∃ new, s'.warnings = s.warnings ++ new ∧ new.length = c'.warnings.length ∧
        ∀ d ∈ new, d.code = "FLM200" ∧ d.className = k.name := by
  have hwarns : c.warnings ≠ [] ↔ g.Untested t := by
    have hocc : ∀ m ∈ [t], ∀ u : Ty, u.Part m → g.Occurs t u := by
      intro m hm u hu
      rw [mem_singleton.1 hm] at hu
      exact Or.inl hu
    simpa using Compile.InTurn.warns_iff hagree (.cons hwhole .nil) hids hocc
  have hmemberWarns : c'.warnings ≠ [] ↔ t.isUnknown = true ∨
      ∃ fields, fieldsOf g t = some fields ∧ ∃ f ∈ fields, g.Untested f.type := by
    cases hfields : fieldsOf g t with
    | none =>
      obtain ⟨ws, hws, hnone⟩ := yields_memberGuards_none hfields
      obtain ⟨-, rfl⟩ := hnone.1 hmembers
      simp [hws]
    | some fields =>
      obtain ⟨rs, hrun, -⟩ := (yields_memberGuards hfields).1 hmembers
      have hocc : ∀ m ∈ fields.map TyField.type, ∀ u : Ty, u.Part m → g.Occurs t u := by
        intro m hm u hu
        obtain ⟨f, hf, rfl⟩ := mem_map.1 hm
        exact (fieldsOf_occurs hfields hf).part hu
      have hknown : t.isUnknown = false := by cases (fieldsOf_declares hfields).1 <;> rfl
      simpa [hknown] using hrun.warns_iff hagree hids' hocc
  refine ⟨hwarns, hmemberWarns, ?_, ?_⟩
  · rintro hw (hunknown | ⟨fields, hfields, hall⟩)
    · exact hmemberWarns.2 (Or.inl hunknown)
    · obtain ⟨f, hf, hu⟩ := (fieldsOf_declares hfields).1.untested (hwarns.1 hw)
      exact hmemberWarns.2 (Or.inr ⟨fields, hfields, f, hall f hf, hu⟩)
  · intro p k config config' s s' q hstart hgraph hshape hauthor hrun
    obtain ⟨_, _, compiler, _, r', hguards, -, -, rfl⟩ :=
      withAttributeGuards_guarded hrun hauthor hshape
    rw [hstart, hgraph] at hguards
    obtain ⟨-, rfl⟩ := hguards.unique hmembers
    refine ⟨_, rfl, length_map _, fun d hd => ?_⟩
    obtain ⟨w, -, rfl⟩ := mem_map.1 hd
    exact ⟨rfl, rfl⟩

end

/-! ## Attributes behind a name -/

namespace Dials

/-- The name of the attributes. -/
def settings : Declaration := ⟨1, "Settings", .aliasDecl, "a.ts", .nowhere⟩

/-- A class whose attributes are given by the name. -/
def dial : ClassDecl where
  decl := ⟨0, "Dial", .classDecl, "a.ts", .nowhere⟩
  typeParams := []
  parent := none
  implemented := []
  decorations := []
  members := [.field
    { loc := .nowhere, name := "attributes", optional := false, static := false
      type := some (.reference .nowhere "Settings" [])
      readOnly := false, definite := false, init := none }]

/-- The program in which the name stands for the type. -/
def program (type : TypeExpr) : Program where
  files := [{
    path := "a.ts", external := false, ambient := false, classes := [dial], interfaces := []
    aliases := [⟨settings, [], type⟩], decorators := [] }]

/-- The type of a value that is not known before the program runs. -/
def query : TypeExpr := .query .nowhere (.name .nowhere "defaults")

/-- The reference that the attributes resolve to. -/
def attributes : Ty := .reference 0 settings [] []

/-- The graph of the program in which the unknown type is the type of a field. -/
def graph : Graph := ⟨3, [(0, .object 2 [.mk "mode" (.deferred 1 "defaults") false])]⟩

theorem namesAgree {uidOf : Declaration → String} : graph.NamesAgree uidOf attributes :=
  Graph.namesAgree_of_eq (i := 0) (by simp +contextual [Graph.pool, graph, attributes])

end Dials

/-- An unknown type in a field of the attributes is reported. -/
theorem warnings_of_members_dial : ∃ r c guards c' q config s',
    Gives ((Dials.program (.object .nowhere [.mk "mode" false Dials.query])).typeOfProperty
      Dials.dial attributesProperty) Resolution.empty (some Dials.attributes) q ∧
    q.graph = Dials.graph ∧
    Yields (typeGuard Dials.graph Dials.attributes) (Compiler.empty .path) r c ∧
    Yields (memberGuards Dials.graph Dials.attributes) (Compiler.empty .path) guards c' ∧
    Yields (withAttributeGuards (Dials.program (.object .nowhere [.mk "mode" false Dials.query]))
      Dials.dial []) (Session.start .path) config s' ∧
    Dials.graph.Untested Dials.attributes ∧ c'.warnings ≠ [] ∧
    ∃ d ∈ s'.warnings, d.code = "FLM200" := by
  obtain ⟨q, hshape, hgraph⟩ : ∃ q, Gives ((Dials.program (.object .nowhere
      [.mk "mode" false Dials.query])).typeOfProperty Dials.dial attributesProperty)
      Resolution.empty (some Dials.attributes) q ∧ q.graph = Dials.graph := ⟨_, rfl, rfl⟩
  obtain ⟨config, s', hrun⟩ : ∃ config s', Yields (withAttributeGuards (Dials.program (.object
      .nowhere [.mk "mode" false Dials.query])) Dials.dial []) (Session.start .path) config s' :=
    ⟨_, _, rfl⟩
  obtain ⟨r, c, uid, hwhole, hassigned, hwarned⟩ : ∃ r c uid, Yields (typeGuard Dials.graph
      Dials.attributes) (Compiler.empty .path) r c ∧ c.ids = ⟨.path, [(1, uid)]⟩ ∧
      c.warnings ≠ [] := ⟨_, _, _, rfl, rfl, by decide⟩
  have hids : c.ids.Follows (fun _ => uid) := by
    rw [hassigned]
    exact Registry.follows_single fun _ _ => rfl
  have hmembers : Yields (memberGuards Dials.graph Dials.attributes) (Compiler.empty .path)
      [⟨"mode", false, .always "typeof defaults"⟩]
      ⟨Registry.empty .path, Arena.empty, [⟨"typeof defaults", "typeof defaults"⟩]⟩ := rfl
  have hall : ∀ f, Dials.graph.Declares Dials.attributes f →
      f ∈ [TyField.mk "mode" (.deferred 1 "defaults") false] := by
    rintro f (_ | ⟨hbody, hf⟩)
    cases hbody
    cases hf with
    | object hf => exact hf
  obtain ⟨huntested, -, hboth, hreported⟩ := warnings_of_members hwhole hmembers hids
    (by intro d u hu; cases hu) Dials.namesAgree
  obtain ⟨new, hnew, hlength, hcodes⟩ := hreported rfl hgraph hshape (by intro v hv; cases hv) hrun
  refine ⟨r, c, _, _, q, config, s', hshape, hgraph, hwhole, hmembers, hrun,
    huntested.1 hwarned, hboth hwarned (Or.inr ⟨_, rfl, hall⟩), ?_⟩
  obtain ⟨d, hd⟩ : ∃ d, d ∈ new := exists_mem_of_length_pos (by rw [hlength]; decide)
  exact ⟨d, by rw [hnew]; exact mem_append_right _ hd, (hcodes d hd).1⟩

/-- Where the name stands for the unknown type, the guard of the type warns, the guards of the
members do not, and nothing is reported. -/
theorem members_without_warning : ∃ q r c guards c' config s',
    Gives ((Dials.program Dials.query).typeOfProperty Dials.dial attributesProperty)
      Resolution.empty (some Dials.attributes) q ∧
    Yields (typeGuard q.graph Dials.attributes) (Compiler.empty .path) r c ∧
    Yields (memberGuards q.graph Dials.attributes) (Compiler.empty .path) guards c' ∧
    Yields (withAttributeGuards (Dials.program Dials.query) Dials.dial []) (Session.start .path)
      config s' ∧
    c.warnings ≠ [] ∧ c'.warnings = [] ∧ s'.warnings = [] :=
  ⟨_, _, _, _, _, _, _, rfl, rfl, rfl, rfl, by decide, rfl, rfl⟩

end Componentry
