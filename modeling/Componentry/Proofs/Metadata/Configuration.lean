import Componentry.Proofs.Metadata.Attributes

/-!
# What the author writes into a configuration

A decorator of the runtime takes its configuration from one object literal. Of entries with one key
the last counts, in the place of the first (`get?_ofProperties`, `keys_ofProperties`). A component's
configuration is then completed by guards; `Entries.Completed` says what completing may do, and both
steps of it keep that law. Nothing the author wrote is replaced (`author_entries_kept`).

A decorator of the runtime has no place for other arguments, so these are left out; any other
decorator keeps all its arguments as they are (`arguments_shown`).
-/

namespace Componentry

open List Entries Property MetaValue

open scoped List

variable {v : MetaValue} {c : ClassDecl} {p : Program} {s' s : Session} {config author : Entries}

/-! ## Entries in their order -/

namespace Entries

variable {es : Entries} {key : String}

theorem get?_isSome : (es.get? key).isSome = true ↔ key ∈ es.keys := by
  unfold get? keys
  rw [lookup_isSome_iff]
  simp

/-- A key that is not there goes to the end. -/
theorem put_of_notMem : ∀ {es : Entries}, key ∉ es.keys → es.put key v = es ++ [(key, v)]
  | [], _ => rfl
  | e :: es, h => by
    obtain ⟨hne, hrest⟩ : key ≠ e.1 ∧ key ∉ keys es := by simpa [keys] using h
    rw [put, if_neg (by simpa using Ne.symm hne), put_of_notMem hrest]
    rfl

/-- A key that is there stays where it is. -/
theorem keys_put_of_mem : ∀ {es : Entries}, key ∈ es.keys → (es.put key v).keys = es.keys
  | [], h => by cases h
  | e :: es, h => by
    rw [put]
    split
    · next he =>
        have he : e.1 = key := by simpa using he
        simp [keys, he]
    · next he =>
        have hrest : key ∈ keys es := by
          obtain heq | hrest := mem_cons.1 h
          · exact absurd (by simp [heq]) he
          · exact hrest
        have ih : (put es key v).keys = keys es := keys_put_of_mem hrest
        unfold keys at ih ⊢
        rw [map_cons, map_cons, ih]

theorem keys_put : (es.put key v).keys = if key ∈ es.keys then es.keys else es.keys ++ [key] := by
  split
  · next h => exact keys_put_of_mem h
  · next h =>
      rw [put_of_notMem h]
      simp [keys]

theorem nodup_keys_put (h : es.keys.Nodup) : (es.put key v).keys.Nodup := by
  rw [keys_put]
  split
  · exact h
  · next hnew => simpa using h.concat hnew

/-- Entries in front that do not have the key are passed by. -/
theorem put_append {new : Entries} : ∀ {es : Entries}, key ∉ es.keys →
    put (es ++ new) key v = es ++ new.put key v
  | [], _ => rfl
  | e :: es, h => by
    obtain ⟨hne, hrest⟩ : key ≠ e.1 ∧ key ∉ keys es := by simpa [keys] using h
    rw [cons_append, put, if_neg (by simpa using Ne.symm hne), put_append hrest]
    rfl

end Entries

/-! ## Object literals -/

/-- The expression that counts for a key of an object literal: the last one written for it. -/
def Property.last? (ps : List Property) (key : String) : Option Expr :=
  (ps.reverse.find? (·.key == key)).map value

/-- The keys of an object literal, in the order in which they are first written. -/
def Property.keys (ps : List Property) : List String := (ps.map key).eraseDups

theorem get?_ofProperties_over (key : String) : ∀ (ps : List Property) (sofar : Entries),
    (ofProperties sofar ps).get? key =
      ((Property.last? ps key).map ofExpr).or (sofar.get? key)
  | [], sofar => by
    rw [ofProperties]
    rfl
  | .mk l k value :: ps, sofar => by
    rw [ofProperties, get?_ofProperties_over key ps]
    unfold Property.last?
    rw [reverse_cons, find?_append]
    cases hfound : ps.reverse.find? (·.key == key) with
    | some q => rfl
    | none =>
      by_cases hk : k = key
      · subst hk
        rw [get?_put_self]
        simp [Property.key, Property.value]
      · rw [get?_put_of_ne (Ne.symm hk)]
        simp [Property.key, hk]

theorem get?_ofProperties (ps : List Property) (key : String) :
    (ofProperties [] ps).get? key = (last? ps key).map ofExpr := by
  rw [get?_ofProperties_over]
  simp [get?]

theorem keys_ofProperties_over : ∀ (ps : List Property) (sofar : Entries),
    (ofProperties sofar ps).keys =
      sofar.keys ++ ((ps.map key).filter (fun k => !sofar.keys.contains k)).eraseDups
  | [], sofar => by simp [ofProperties]
  | .mk l k value :: ps, sofar => by
    rw [ofProperties, keys_ofProperties_over ps, keys_put, map_cons]
    show _ = _ ++ ((k :: ps.map key).filter _).eraseDups
    split
    · next hk => rw [filter_cons_of_neg (by simpa using hk)]
    · next hk =>
        have hfilter : (ps.map key).filter (fun x => !(sofar.keys ++ [k]).contains x) =
            (ps.map key).filter (fun x => !(x == k) && !sofar.keys.contains x) := by
          refine filter_congr fun x _ => ?_
          by_cases hx : x = k <;> simp [hx]
        rw [filter_cons_of_pos (by simpa using hk), eraseDups_cons,
          filter_filter, append_assoc, hfilter]
        rfl

theorem nodup_keys_ofProperties : ∀ (ps : List Property) {sofar : Entries}, sofar.keys.Nodup →
    (ofProperties sofar ps).keys.Nodup
  | [], sofar, h => by
    rw [ofProperties]
    exact h
  | .mk l k value :: ps, sofar, h => by
    rw [ofProperties]
    exact nodup_keys_ofProperties ps (nodup_keys_put h)

theorem keys_ofProperties (ps : List Property) :
    (Entries.ofProperties [] ps).keys = Property.keys ps := by
  rw [keys_ofProperties_over]
  simp [Property.keys, Entries.keys]

/-! ## Completing a configuration -/

/-- What completing a configuration may do to the entries of its author: `added` are the keys that
come behind them. The author's values stay, except that guards may come behind the entries of an
object literal for the attributes, under names that are not among them. -/
structure Entries.Completed (author config : Entries) (added : List String) : Prop where
  keys : config.keys = author.keys ++ added
  fresh : ∀ key ∈ added, key ∉ author.keys
  kept : ∀ {key v}, author.get? key = some v → key ≠ "attributes" → config.get? key = some v
  verbatim : ∀ {v}, author.get? "attributes" = some v → (∀ es, v ≠ .object es) →
    config.get? "attributes" = some v
  guarded : ∀ {es}, author.get? "attributes" = some (.object es) → ∃ generated : Entries,
    config.get? "attributes" = some (.object (es ++ generated)) ∧ generated.keys.Nodup ∧
      ∀ x ∈ generated, x.1 ∉ Entries.keys es ∧ ∃ g, x.2 = .guard g

namespace Entries.Completed

variable {author config : Entries} {added : List String}

theorem refl (es : Entries) : Completed es es [] where
  keys := by simp
  fresh := by simp
  kept := fun h _ => h
  verbatim := fun h _ => h
  guarded := by
    intro attributes h
    exact ⟨[], by simpa using h, nodup_nil, by simp⟩

/-- A further entry behind the others, for a key other than `attributes`. -/
theorem concat (h : Completed author config added) {key : String} (hnew : key ∉ config.keys)
    (hne : key ≠ "attributes") (v : MetaValue) :
    Completed author (config.put key v) (added ++ [key]) := by
  have hstays : ∀ {k w}, config.get? k = some w → (config.put key v).get? k = some w := by
    intro k w hw
    have hk : k ≠ key := by
      rintro rfl
      exact hnew (get?_isSome.1 (by rw [hw]; rfl))
    rw [get?_put_of_ne hk, hw]
  refine ⟨?_, ?_, ?_, ?_, ?_⟩
  · rw [keys_put, if_neg hnew, h.keys, append_assoc]
  · intro k hk
    obtain hk | hk := mem_append.1 hk
    · exact h.fresh k hk
    · obtain rfl := mem_singleton.1 hk
      intro hmem
      rw [h.keys] at hnew
      exact hnew (mem_append_left _ hmem)
  · intro k w hw hk
    exact hstays (h.kept hw hk)
  · intro w hw hno
    exact hstays (h.verbatim hw hno)
  · intro attributes hattributes
    obtain ⟨generated, hget, hgenerated⟩ := h.guarded hattributes
    exact ⟨generated, hstays hget, hgenerated⟩

end Entries.Completed

/-- Guards that are not omitted come behind the entries whose names are all omitted. -/
theorem addGuards_eq_append {omitted : List String} {attributes : Entries}
    {guards : List FieldGuard} (hkeys : ∀ key ∈ attributes.keys, key ∈ omitted) :
    ∃ generated : Entries, addGuards omitted attributes guards = attributes ++ generated ∧
      generated.keys.Nodup ∧ ∀ x ∈ generated, x.1 ∉ attributes.keys ∧ ∃ g, x.2 = .guard g := by
  have hapart : ∀ g ∈ guards.filter fun g => !omitted.contains g.name, g.name ∉ attributes.keys := by
    intro g hg hmem
    simpa [hkeys _ hmem] using (mem_filter.1 hg).2
  unfold addGuards
  generalize guards.filter (fun g => !omitted.contains g.name) = kept at hapart
  -- the guards so far are carried along behind the entries of the author
  suffices hloop : ∀ sofar : Entries, sofar.keys.Nodup →
      (∀ x ∈ sofar, x.1 ∉ attributes.keys ∧ ∃ g, x.2 = .guard g) → ∃ generated : Entries,
        kept.foldl (fun es g => es.put g.name (.guard g.guard)) (attributes ++ sofar) =
            attributes ++ generated ∧
          generated.keys.Nodup ∧ ∀ x ∈ generated, x.1 ∉ attributes.keys ∧ ∃ g, x.2 = .guard g by
    simpa using hloop [] nodup_nil (by simp)
  induction kept with
  | nil => exact fun sofar hnodup hsofar => ⟨sofar, rfl, hnodup, hsofar⟩
  | cons g gs ih =>
    intro sofar hnodup hsofar
    have hg := hapart g mem_cons_self
    rw [foldl_cons, put_append hg]
    refine ih (fun g' hg' => hapart g' (mem_cons_of_mem _ hg')) _
      (nodup_keys_put hnodup) ?_
    intro x hx
    obtain hx | rfl := mem_put hx
    · exact hsofar x hx
    · exact ⟨hg, g.guard, rfl⟩

/-- The names that the author gives are omitted. -/
theorem mem_omitted_of_explicit {explicit omitted : List String} {r r' : Resolution}
    (h : Gives (omittedAttributes p c explicit) r omitted r') :
    ∀ key ∈ explicit, key ∈ omitted := by
  obtain ⟨found, r₁, -, h⟩ := gives_bind.1 h
  cases found with
  | none =>
    obtain ⟨rfl, -⟩ := gives_pure.1 h
    exact fun key hkey => hkey
  | some pair =>
    obtain ⟨_, _, -, h⟩ := gives_bind.1 h
    dsimp only at h
    split at h
    · obtain ⟨rfl, -⟩ := gives_pure.1 h
      exact fun key hkey => mem_append_left _ hkey
    · obtain ⟨rfl, -⟩ := gives_pure.1 h
      exact fun key hkey => hkey

/-- Entries put under `attributes` that begin with those of the author. -/
theorem Entries.completed_put {attributes generated : Entries}
    (hattributes : (author.get? "attributes").getD (.object []) = .object attributes)
    (hnodup : generated.keys.Nodup)
    (hgenerated : ∀ x ∈ generated, x.1 ∉ attributes.keys ∧ ∃ g, x.2 = .guard g) :
    ∃ added, added <+ ["attributes"] ∧
      author.Completed (author.put "attributes" (.object (attributes ++ generated))) added := by
  have hkeys : (author.put "attributes" (.object (attributes ++ generated))).keys =
      if "attributes" ∈ author.keys then author.keys else author.keys ++ ["attributes"] :=
    Entries.keys_put
  have hself := Entries.get?_put_self "attributes" (.object (attributes ++ generated)) author
  have hobject : ∀ {v}, author.get? "attributes" = some v → v = .object attributes := by
    intro v hv
    simpa [hv] using hattributes
  have hcompleted : ∀ {added : List String}, (∀ key ∈ added, key ∉ author.keys) →
      (author.put "attributes" (.object (attributes ++ generated))).keys = author.keys ++ added →
      author.Completed (author.put "attributes" (.object (attributes ++ generated))) added := by
    intro added hfresh hadded
    refine ⟨hadded, hfresh, ?_, ?_, ?_⟩
    · intro key v hv hne
      rw [Entries.get?_put_of_ne hne, hv]
    · intro v hv hno
      exact absurd (hobject hv) (hno attributes)
    · intro es hes
      obtain rfl : es = attributes := by simpa using hobject hes
      exact ⟨generated, hself, hnodup, hgenerated⟩
  by_cases hmem : "attributes" ∈ author.keys
  · rw [if_pos hmem] at hkeys
    exact ⟨[], nil_sublist _, hcompleted (by simp) (by simpa using hkeys)⟩
  · rw [if_neg hmem] at hkeys
    exact ⟨["attributes"], Sublist.refl _, hcompleted (by simpa using hmem) hkeys⟩

theorem withAttributeGuards_completed (h : Yields (withAttributeGuards p c author) s config s') :
    ∃ added, added <+ ["attributes"] ∧ author.Completed config added := by
  cases withAttributeGuards_cases h with
  | kept hauthor => exact ⟨[], nil_sublist _, .refl _⟩
  | @missing attributes hauthor =>
    have hempty : ∀ x ∈ ([] : Entries),
        x.1 ∉ Entries.keys attributes ∧ ∃ g, x.2 = .guard g := by simp
    have hnodup : (Entries.keys []).Nodup := nodup_nil
    simpa using Entries.completed_put hauthor hnodup hempty
  | @guarded attributes hauthor _ _ _ guards _ _ omitted _ homitted =>
    obtain ⟨generated, heq, hnodup, hgenerated⟩ : ∃ generated : Entries,
        addGuards omitted attributes guards = attributes ++ generated ∧ _ :=
      addGuards_eq_append (mem_omitted_of_explicit homitted)
    rw [heq]
    exact Entries.completed_put hauthor hnodup hgenerated

/-- The guard of the instance is the only entry that a configuration can still get. -/
theorem withInstanceGuard_completed {config' : Entries} {added : List String}
    (hauthor : author.Completed config added)
    (h : Yields (withInstanceGuard p c config) s config' s') :
    ∃ more, more <+ ["instanceGuard"] ∧ author.Completed config' (added ++ more) := by
  cases withInstanceGuard_cases h with
  | kept => exact ⟨[], nil_sublist _, by simpa using hauthor⟩
  | guarded hnew =>
    have hkeys : "instanceGuard" ∉ config.keys := by
      rw [← Entries.get?_isSome]
      exact hnew
    exact ⟨["instanceGuard"], Sublist.refl _, hauthor.concat hkeys (by decide) _⟩

/-- The configuration of a decorator of the runtime: its name, and what the author's entries have
become. -/
theorem decorationConfig_completed {d : ResolvedDecoration} {component : Bool}
    (hd : d.recognized = true) (h : Yields (decorationConfig p c d component) s config s') :
    ∃ completed added, added <+ ["attributes", "instanceGuard"] ∧
      (authorEntries d.args).Completed completed added ∧
      config = completed.putFirst "type" (.text d.name) := by
  unfold decorationConfig at h
  rw [hd] at h
  cases component with
  | false =>
    obtain ⟨rfl, -⟩ := yields_pure.1 h
    exact ⟨_, [], nil_sublist _, .refl _, rfl⟩
  | true =>
    simp only [Bool.not_true, Bool.false_eq_true, if_false, if_true] at h
    obtain ⟨first, s₁, hfirst, h⟩ := yields_bind.1 h
    obtain ⟨second, hsecond, rfl⟩ := yields_map.1 h
    obtain ⟨added, hadded, hcompleted⟩ := withAttributeGuards_completed hfirst
    obtain ⟨more, hmore, hcompleted⟩ := withInstanceGuard_completed hcompleted hsecond
    exact ⟨second, added ++ more, hadded.append hmore, hcompleted, rfl⟩

/-! ## The author's entries -/

theorem Entries.keys_putFirst (es : Entries) (key : String) (v : MetaValue) :
    (es.putFirst key v).keys = key :: es.keys.filter (· != key) := by
  unfold putFirst keys
  rw [map_cons, filter_map]
  rfl

/-- **What the author writes is kept.** Let a component carry a decorator of the runtime whose first
argument is an object literal, and let its configuration be made. No key occurs twice in it, and
`type` comes first, with the name of the decorator. Each key of the literal has the value that was
written for it last; only `type` is the decorator's own, and behind an object literal for the
attributes come guards under names that it does not have. The keys are those of the literal in
their order, and perhaps `attributes` and `instanceGuard` behind them. -/
theorem author_entries_kept {p : Program} {c : ClassDecl} {d : ResolvedDecoration} {l : Location}
    {ps : List Property} {rest : List Expr} {s s' : Session} {config : Entries}
    (hd : d.recognized = true) (hargs : d.args = .object l ps :: rest)
    (h : Yields (decorationConfig p c d true) s config s') :
    config.keys.Nodup ∧
    config.head? = some ("type", .text d.name) ∧
    (∀ key e, last? ps key = some e → key ≠ "type" → key ≠ "attributes" →
      config.get? key = some (ofExpr e)) ∧
    (∀ l' qs, last? ps "attributes" = some (.object l' qs) → ∃ generated : Entries,
      config.get? "attributes" = some (.object (Entries.ofProperties [] qs ++ generated)) ∧
      generated.keys.Nodup ∧
      ∀ x ∈ generated, x.1 ∉ qs.map key ∧ ∃ g, x.2 = .guard g) ∧
    (∀ e, last? ps "attributes" = some e → (∀ l' qs, e ≠ .object l' qs) →
      config.get? "attributes" = some (.source e)) ∧
    ∃ added, added <+ ["attributes", "instanceGuard"] ∧
      config.keys = "type" :: ((keys ps).filter (· != "type") ++ added) := by
  obtain ⟨completed, added, hadded, hcompleted, rfl⟩ := decorationConfig_completed hd h
  have hauthor : authorEntries d.args = Entries.ofProperties [] ps := by rw [hargs, authorEntries]
  rw [hauthor] at hcompleted
  have hwritten : ∀ {key e}, last? ps key = some e →
      (Entries.ofProperties [] ps).get? key = some (ofExpr e) := by
    intro key e he
    rw [get?_ofProperties, he]
    rfl
  have hnodup : completed.keys.Nodup := by
    rw [hcompleted.keys, nodup_append]
    refine ⟨nodup_keys_ofProperties ps nodup_nil, hadded.nodup (by decide), ?_⟩
    rintro key hkey _ hnew rfl
    exact hcompleted.fresh key hnew hkey
  refine ⟨?_, rfl, ?_, ?_, ?_, added, hadded, ?_⟩
  · rw [Entries.keys_putFirst]
    exact nodup_cons.2 ⟨by simp, hnodup.filter _⟩
  · intro key e he htype hattributes
    rw [Entries.get?_putFirst_of_ne htype]
    exact hcompleted.kept (hwritten he) hattributes
  · intro l' qs he
    have hobject := hwritten he
    rw [ofExpr] at hobject
    obtain ⟨generated, hget, hdistinct, hgenerated⟩ := hcompleted.guarded hobject
    refine ⟨generated, ?_, hdistinct, ?_⟩
    · rw [Entries.get?_putFirst_of_ne (by decide), hget]
    · intro x hx
      obtain ⟨hname, hguard⟩ := hgenerated x hx
      rw [keys_ofProperties, Property.keys, mem_eraseDups] at hname
      exact ⟨hname, hguard⟩
  · intro e he hno
    have hsource : ofExpr e = .source e := by
      cases e with
      | object l' qs => exact absurd rfl (hno l' qs)
      | _ => rw [ofExpr]
    have hverbatim := hwritten he
    rw [hsource] at hverbatim
    rw [Entries.get?_putFirst_of_ne (by decide)]
    exact hcompleted.verbatim hverbatim (by simp)
  · have htype : added.filter (· != "type") = added := by
      refine filter_eq_self.2 fun key hkey => ?_
      obtain hkey | hkey : key = "attributes" ∨ key = "instanceGuard" := by
        simpa using hadded.subset hkey
      · rw [hkey]; decide
      · rw [hkey]; decide
    rw [Entries.keys_putFirst, hcompleted.keys, filter_append, htype, keys_ofProperties]

/-! ## A bell -/

namespace Bells

/-- The bell has a volume and a label among its attributes. -/
def bell : ClassDecl :=
  attributedClass 0 "Bell" false none [.mk "volume" false (.reference .nowhere "number" []),
    .mk "label" false (.reference .nowhere "string" [])]

/-- The one file with the bell. -/
def program : Program where
  files := [{
    path := "a.ts", external := false, ambient := false, classes := [bell], interfaces := []
    aliases := []
    decorators := [⟨⟨1, "Component", .decorator, "a.ts", .nowhere⟩, true, true, true⟩,
      ⟨⟨2, "Service", .decorator, "a.ts", .nowhere⟩, true, false, true⟩] }]

/-- A name that the author uses. -/
def name (n : String) : Expr := .name .nowhere n

/-- The author writes a tone twice, a type, a guard for the volume and a guard for the instance. -/
def written : List Property :=
  [.mk .nowhere "tone" (name "low"), .mk .nowhere "type" (name "gong"),
    .mk .nowhere "attributes" (.object .nowhere [.mk .nowhere "volume" (name "audible")]),
    .mk .nowhere "tone" (name "high"), .mk .nowhere "instanceGuard" (name "isBell")]

/-- The decorator of components with what the author writes. -/
def component : ResolvedDecoration where
  name := "Component"
  decl := ⟨1, "Component", .decorator, "a.ts", .nowhere⟩
  args := [.object .nowhere written]
  recognized := true
  component := true
  withNodes := true
  loc := .nowhere

/-- The decorator of services with some arguments. -/
def service (args : List Expr) : ResolvedDecoration where
  name := "Service"
  decl := ⟨2, "Service", .decorator, "a.ts", .nowhere⟩
  args := args
  recognized := true
  component := false
  withNodes := true
  loc := .nowhere

end Bells

/-- The bell keeps the tone that was written last, in the first place, and its own guards; the label
gets a guard. -/
theorem author_entries_kept_bell : ∃ config s',
    Yields (decorationConfig Bells.program Bells.bell Bells.component true) (Session.start .path)
      config s' ∧
    (∃ added, config.keys = ["type", "tone", "attributes", "instanceGuard"] ++ added) ∧
    config.get? "tone" = some (.source (Bells.name "high")) ∧
    config.get? "instanceGuard" = some (.source (Bells.name "isBell")) ∧
    ∃ generated : Entries, config.get? "attributes" =
      some (.object (("volume", .source (Bells.name "audible")) :: generated)) := by
  obtain ⟨config, s', hrun⟩ : ∃ config s', Yields (decorationConfig Bells.program Bells.bell
      Bells.component true) (Session.start .path) config s' := ⟨_, _, rfl⟩
  obtain ⟨-, -, hkept, hguarded, -, added, -, hkeys⟩ := author_entries_kept rfl rfl hrun
  have hwritten : (keys Bells.written).filter (· != "type") =
      ["tone", "attributes", "instanceGuard"] := by decide
  refine ⟨config, s', hrun, ⟨added, ?_⟩, ?_, ?_, ?_⟩
  · rw [hkeys, hwritten]
    rfl
  · exact hkept "tone" _ rfl (by decide) (by decide)
  · exact hkept "instanceGuard" _ rfl (by decide) (by decide)
  · obtain ⟨generated, hget, -⟩ := hguarded .nowhere _ rfl
    exact ⟨generated, hget⟩

/-! ## Arguments -/

/-- The expression stands in the value as it was written. -/
inductive MetaValue.Quotes (e : Expr) : MetaValue → Prop
  | source : Quotes e (.source e)
  | item {v : MetaValue} {items : List MetaValue} (hv : v ∈ items) (h : Quotes e v) :
      Quotes e (.list items)
  | entry {key : String} {v : MetaValue} {entries : Entries} (hv : (key, v) ∈ entries)
      (h : Quotes e v) : Quotes e (.object entries)

/-- The first value is kept in the second: it is the same, or its entries come first. -/
inductive MetaValue.Keeps : MetaValue → MetaValue → Prop
  | same (v : MetaValue) : Keeps v v
  | first (es more : Entries) : Keeps (.object es) (.object (es ++ more))

/-- The configuration shows an argument: as it was written, or, for an object literal, by its
entries. The type of a decorator of the runtime is not the author's. -/
def ResolvedDecoration.Shows (d : ResolvedDecoration) (config : Entries) (e : Expr) : Prop :=
  (object config).Quotes e ∨ ∃ l ps, e = .object l ps ∧
    ∀ key v, (ofProperties [] ps).get? key = some v →
      (d.recognized = true ∧ key = "type") ∨ ∃ w, config.get? key = some w ∧ v.Keeps w

/-- **Arguments are shown as far as they are settings.** A decorator that is not the runtime's has
all its arguments in its configuration, in their order and as they were written. A decorator of the
runtime shows its first argument if that is an object literal; its configuration is the same
whatever other arguments it has. -/
theorem arguments_shown {p : Program} {c : ClassDecl} {d : ResolvedDecoration} {component : Bool}
    {s s' : Session} {config : Entries} (h : Yields (decorationConfig p c d component) s config s') :
    (d.recognized = false → config.get? "arguments" = some (.list (d.args.map .source)) ∧
      ∀ e ∈ d.args, d.Shows config e) ∧
    (d.recognized = true → ∀ l ps rest, d.args = .object l ps :: rest →
      d.Shows config (.object l ps)) ∧
    (d.recognized = true → ∀ args, authorEntries args = authorEntries d.args →
      Yields (decorationConfig p c { d with args } component) s config s') := by
  refine ⟨?_, ?_, ?_⟩
  · intro hd
    unfold decorationConfig at h
    rw [hd] at h
    obtain ⟨rfl, -⟩ := yields_pure.1 h
    refine ⟨rfl, fun e he => Or.inl ?_⟩
    exact .entry (mem_cons_of_mem _ mem_cons_self)
      (.item (mem_map_of_mem he) .source)
  · intro hd l ps rest hargs
    obtain ⟨completed, added, -, hcompleted, rfl⟩ := decorationConfig_completed hd h
    have hauthor : authorEntries d.args = Entries.ofProperties [] ps := by rw [hargs, authorEntries]
    rw [hauthor] at hcompleted
    refine Or.inr ⟨l, ps, rfl, fun key v hv => ?_⟩
    by_cases htype : key = "type"
    · exact Or.inl ⟨hd, htype⟩
    · right
      rw [Entries.get?_putFirst_of_ne htype]
      by_cases hattributes : key = "attributes"
      · subst hattributes
        by_cases hobject : ∃ es, v = .object es
        · obtain ⟨es, rfl⟩ := hobject
          obtain ⟨generated, hget, -⟩ := hcompleted.guarded hv
          exact ⟨_, hget, .first es generated⟩
        · exact ⟨v, hcompleted.verbatim hv (by simpa using hobject), .same v⟩
      · exact ⟨v, hcompleted.kept hv hattributes, .same v⟩
  · intro hd args hargs
    unfold decorationConfig at h ⊢
    simp only [hd, hargs] at h ⊢
    exact h

/-- A service with settings and another argument shows the settings. -/
theorem arguments_shown_service : ∃ config s', Yields (decorationConfig Bells.program Bells.bell
      (Bells.service [.object .nowhere Bells.written, Bells.name "loud"]) false)
      (Session.start .path) config s' ∧
    (Bells.service [.object .nowhere Bells.written, Bells.name "loud"]).Shows config
      (.object .nowhere Bells.written) ∧
    Yields (decorationConfig Bells.program Bells.bell
      (Bells.service [.object .nowhere Bells.written]) false) (Session.start .path) config s' := by
  obtain ⟨config, s', hrun⟩ : ∃ config s', Yields (decorationConfig Bells.program Bells.bell
      (Bells.service [.object .nowhere Bells.written, Bells.name "loud"]) false)
      (Session.start .path) config s' := ⟨_, _, rfl⟩
  obtain ⟨-, hshows, hsame⟩ := arguments_shown hrun
  exact ⟨config, s', hrun, hshows rfl _ _ _ rfl, hsame rfl _ rfl⟩

/-- A service whose only argument is no object literal does not show it. -/
theorem argument_not_shown : ∃ config s', (Bells.service [Bells.name "loud"]).withNodes = true ∧
    Yields (decorationConfig Bells.program Bells.bell (Bells.service [Bells.name "loud"]) false)
      (Session.start .path) config s' ∧
    ∃ e ∈ (Bells.service [Bells.name "loud"]).args,
      ¬ (Bells.service [Bells.name "loud"]).Shows config e := by
  refine ⟨_, _, rfl, rfl, Bells.name "loud", mem_cons_self, ?_⟩
  rintro (hquotes | ⟨l, ps, hobject, -⟩)
  · cases hquotes with
    | entry hv hquotes =>
      obtain ⟨rfl, rfl⟩ := Prod.mk.inj (mem_singleton.1 hv)
      cases hquotes
  · cases hobject

end Componentry
