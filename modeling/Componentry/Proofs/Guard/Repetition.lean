import Componentry.Proofs.Metadata.Records
import Componentry.Proofs.Types.Fields

/-!
# Compiling again

A compiler answers one request after another: for the guard of a type, or for the guards of the
members of a type. Named guards are only ever added at the end, each name once, and none is changed
(`Compiler.Grows`).

A type is settled once all its references have identifiers and those with a body are named guards
(`Compiler.Settles`). Compiling a type settles it, and whatever is compiled afterwards leaves it
settled. For a settled type every reference is answered by its name, so no body is entered: the
guard is the one by name, and only warnings are added (`guard_settled`). Both together are
`requests_repeat`.
-/

namespace Componentry

open List

variable {c c' : Compiler} {t : Ty} {d : Declaration}

/-! ## Settled types -/

/-- All references of the type have identifiers, and those with a body are named guards. -/
def Compiler.Settles (c : Compiler) (g : Graph) (t : Ty) : Prop :=
  ∀ id d args bases, (Ty.reference id d args bases).Part t →
    ∃ u, c.ids.given? d = some u ∧
      (d.kind ≠ .classDecl → (g.target? id).isSome = true →
        Compile.applicationKey u args ∈ c.arena.keys)

/-- A named guard of a reference of the type says that the reference has a body. -/
def Compiler.NamesBodies (c : Compiler) (g : Graph) (t : Ty) : Prop :=
  ∀ id d args bases, (Ty.reference id d args bases).Part t → d.kind ≠ .classDecl →
    ∀ u, c.ids.given? d = some u → Compile.applicationKey u args ∈ c.arena.keys →
      (g.target? id).isSome = true

section

variable {g : Graph} {uidOf : Declaration → String} {whole t u : Ty} {c c' : Compiler}

theorem Compiler.Settles.part (h : c.Settles g t) (hu : u.Part t) : c.Settles g u :=
  fun id d args bases hpart => h id d args bases (hpart.trans hu)

theorem Compiler.NamesBodies.part (h : c.NamesBodies g t) (hu : u.Part t) : c.NamesBodies g u :=
  fun id d args bases hpart => h id d args bases (hpart.trans hu)

/-- What is settled stays settled. -/
theorem Compiler.Settles.grows (h : c.Settles g t) (hgrows : c.Grows [] c') : c'.Settles g t := by
  intro id d args bases hpart
  obtain ⟨v, hv, hkey⟩ := h id d args bases hpart
  exact ⟨v, hgrows.ids.given hv, fun hk hbody => hgrows.keys (hkey hk hbody)⟩

/-- In a sound state only references with a body are named, since one name has one body. -/
theorem Compiler.Sound.namesBodies (hc : c.Sound g uidOf whole [])
    (hagree : g.NamesAgree uidOf whole) (hids : c.ids.Follows uidOf)
    (hocc : ∀ v : Ty, v.Part t → g.Occurs whole v) : c.NamesBodies g t := by
  intro id d args bases hpart hk v hv hkey
  obtain ⟨body, hbody⟩ := hc.body (Or.inl hkey)
  have hname : g.Names uidOf whole (Compile.applicationKey v args) (g.target? id) :=
    ⟨id, d, args, bases, hocc _ hpart, hk, by rw [hids hv], rfl⟩
  rw [hagree hname hbody]
  rfl

/-- The guard by name of a type refers to every reference with a body in it. -/
theorem Ty.mem_refs_byName {id : NodeId} {args : List Ty} {bases : List Declaration}
    (hk : d.kind ≠ .classDecl) (hbody : (g.target? id).isSome = true)
    (h : (Ty.reference id d args bases).Part t) :
    Compile.applicationKey (uidOf d) args ∈ (t.byName g uidOf).refs := by
  induction t using Ty.induct with
  | basic ht => cases ht.part h
  | @composed t ts build ht ih =>
    obtain rfl | ⟨m, hm, h⟩ := ht.part_cases h
    · cases ht
    · rw [ht.byName, ht.mem_refs (length_map _)]
      exact ⟨_, mem_map_of_mem hm, ih m hm h⟩
  | reference i e args' bases' =>
    cases h
    simp [Ty.byName, hk, hbody, Guard.refs]
  | unknown ht =>
    cases h with
    | refl => cases ht
    | _ => cases ht

end

/-! ## Compiling settles a type -/

section

variable {g : Graph} {uidOf : Declaration → String} {whole : Ty} {underWay : List String}

/-- Every reference of the type has an identifier. -/
def Compiler.Identified (c : Compiler) (t : Ty) : Prop :=
  ∀ id d args bases, (Ty.reference id d args bases).Part t → (c.ids.given? d).isSome = true

theorem Compiler.Identified.grows (h : c.Identified t) (hgrows : c.Grows underWay c') :
    c'.Identified t := by
  intro id d args bases hpart
  obtain ⟨u, hu⟩ := Option.isSome_iff_exists.1 (h id d args bases hpart)
  rw [hgrows.ids.given hu]
  rfl

theorem Compiles.identified {ts : List Ty} {rs : List Guard} {names : List String}
    (h : Compiles g underWay ts c rs names c') : ∀ t ∈ ts, c'.Identified t := by
  induction h with
  | nil => simp
  | append _ hrest ih ih' =>
    exact forall_mem_append.2 ⟨fun t ht => (ih t ht).grows hrest.grows.1, ih'⟩
  | basic ht =>
    intro t' ht' id d args bases hpart
    rw [mem_singleton.1 ht'] at hpart
    cases ht.part hpart
  | composed ht _ ih =>
    intro t' ht' id d args bases hpart
    rw [mem_singleton.1 ht'] at hpart
    obtain rfl | ⟨m, hm, hpart⟩ := ht.part_cases hpart
    · cases ht
    · exact ih m hm id d args bases hpart
  | unknown ht =>
    intro t' ht' id d args bases hpart
    rw [mem_singleton.1 ht'] at hpart
    cases hpart <;> cases ht
  | ofClass hu | known hu | bodyless hu =>
    intro t' ht' id d args bases hpart
    rw [mem_singleton.1 ht'] at hpart
    cases hpart
    simp [Registry.uid_given hu]
  | body hu hk hkey hway ht h ih =>
    intro t' ht' id d args bases hpart
    rw [mem_singleton.1 ht'] at hpart
    cases hpart
    -- the identifier was given before the body was compiled
    have hlater := h.grows.1.ids.given (Registry.uid_given hu)
    simp [hlater]

/-- Compiling types returns their guards by name and settles them. -/
theorem Compiles.settles (hagree : g.NamesAgree uidOf whole) {ts : List Ty} {rs : List Guard}
    {names : List String} (h : Compiles g [] ts c rs names c')
    (hocc : ∀ t ∈ ts, ∀ u : Ty, u.Part t → g.Occurs whole u) (hids : c'.ids.Follows uidOf)
    (hc : c.Sound g uidOf whole []) :
    rs = ts.map (Ty.byName g uidOf) ∧ c'.Sound g uidOf whole [] ∧ ∀ t ∈ ts, c'.Settles g t := by
  obtain ⟨⟨hnamed, -⟩, hsound⟩ := h.byName hagree hocc hids hc
  refine ⟨hnamed, hsound, ?_⟩
  intro t ht id d args bases hpart
  obtain ⟨u, hu⟩ := Option.isSome_iff_exists.1 (h.identified t ht id d args bases hpart)
  refine ⟨u, hu, ?_⟩
  intro hk hbody
  have hmem : Compile.applicationKey (uidOf d) args ∈ (t.byName g uidOf).refs :=
    Ty.mem_refs_byName hk hbody hpart
  rw [hids hu] at hmem
  have hguard : t.byName g uidOf ∈ rs := hnamed ▸ mem_map_of_mem ht
  -- nothing is under way at the end of a whole type, so a name that is known is defined
  exact (h.grows.2 _ hguard _ hmem).resolve_right (by simp)

/-! ## Compiling a settled type -/

namespace Compile

theorem yields_uid_of_given {u : String} (h : c.ids.given? d = some u) : Yields (uid d) c u c := by
  have huid : c.ids.uid d = .ok (u, c.ids) := by
    unfold Registry.given? at h
    unfold Registry.uid
    rw [h]
  refine yields_bind.2 ⟨c, c, yields_get.2 ⟨rfl, rfl⟩, ?_⟩
  simp only [huid]
  exact yields_bind.2 ⟨(), c, yields_set.2 rfl, yields_pure.2 ⟨rfl, rfl⟩⟩

variable {follow : CompileAt}

theorem reference_settled {id : NodeId} {args : List Ty} {bases : List Declaration}
    (hc : c.Settles g (.reference id d args bases))
    (hn : c.NamesBodies g (.reference id d args bases)) (hids : c.ids.Follows uidOf) :
    ∃ ws, Yields (reference g follow [] id d args) c
      ((Ty.reference id d args bases).byName g uidOf) { c with warnings := ws } := by
  obtain ⟨u, hu, hkey⟩ := hc id d args bases (.refl _)
  have huid : uidOf d = u := hids hu
  by_cases hk : d.kind = .classDecl
  · refine ⟨c.warnings, yields_bind.2 ⟨u, c, yields_uid_of_given hu, ?_⟩⟩
    simp only [hk, if_true, Ty.byName, huid]
    exact yields_pure.2 ⟨rfl, rfl⟩
  · cases ht : g.target? id with
    | some body =>
      have hmem : applicationKey u args ∈ c.arena.keys := hkey hk (by rw [ht]; rfl)
      have hcond : ((c.arena.lookup (applicationKey u args)).isSome ||
          ([] : List String).contains (applicationKey u args)) = true := by
        rw [Arena.lookup_isSome.2 hmem]
        rfl
      refine ⟨c.warnings, yields_bind.2 ⟨u, c, yields_uid_of_given hu, ?_⟩⟩
      simp only [hk, if_false]
      refine yields_bind.2 ⟨c, c, yields_get.2 ⟨rfl, rfl⟩, ?_⟩
      rw [if_pos hcond]
      simp only [Ty.byName, hk, if_false, ht, Option.isSome_some, if_true, huid]
      exact yields_pure.2 ⟨rfl, rfl⟩
    | none =>
      -- the name is not defined, because a defined name would have a body
      have hnew : applicationKey u args ∉ c.arena.keys := by
        intro hmem
        have hbody := hn id d args bases (.refl _) hk u hu hmem
        rw [ht] at hbody
        cases hbody
      have hcond : ¬ ((c.arena.lookup (applicationKey u args)).isSome ||
          ([] : List String).contains (applicationKey u args)) = true := by
        rw [Arena.lookup_eq_none.2 hnew]
        simp
      let reason := d.name ++ " has no body"
      refine ⟨c.warnings ++ [⟨(Ty.unrepresentable 0 reason).text, reason⟩],
        yields_bind.2 ⟨u, c, yields_uid_of_given hu, ?_⟩⟩
      simp only [hk, if_false]
      refine yields_bind.2 ⟨c, c, yields_get.2 ⟨rfl, rfl⟩, ?_⟩
      rw [if_neg hcond]
      simp only [Ty.byName, hk, if_false, ht, Option.isSome_none]
      exact yields_warn.2 ⟨rfl, rfl⟩

/-- Each step for a settled type adds nothing but warnings, and a state with other warnings settles
the same types. -/
theorem InTurn.settled {step : Ty → Compiler → Guard → Compiler → Prop} {ts : List Ty}
    (hstep : ∀ t ∈ ts, ∀ {c : Compiler}, c.Settles g t → c.NamesBodies g t →
      c.ids.Follows uidOf → ∃ ws, step t c (t.byName g uidOf) { c with warnings := ws }) :
    ∀ {c : Compiler}, (∀ t ∈ ts, c.Settles g t) → (∀ t ∈ ts, c.NamesBodies g t) →
      c.ids.Follows uidOf →
        ∃ ws, InTurn step ts c (ts.map (Ty.byName g uidOf)) { c with warnings := ws } := by
  induction ts with
  | nil => exact fun {c} _ _ _ => ⟨c.warnings, .nil⟩
  | cons t ts ih =>
    intro c hc hn hids
    rw [forall_mem_cons] at hstep hc hn
    obtain ⟨ws, hfirst⟩ := hstep.1 hc.1 hn.1 hids
    obtain ⟨ws', hrest⟩ := ih hstep.2 (c := { c with warnings := ws }) hc.2 hn.2 hids
    exact ⟨ws', .cons hfirst hrest⟩

/-- No body is entered, whatever `follow` would do. -/
theorem guard_settled (t : Ty) : ∀ {c : Compiler}, c.Settles g t → c.NamesBodies g t →
    c.ids.Follows uidOf →
      ∃ ws, Yields (guard g follow [] t) c (t.byName g uidOf) { c with warnings := ws } := by
  induction t using Ty.induct with
  | basic ht =>
    intro c hc hn hids
    exact ⟨c.warnings, (yields_basic ht uidOf).2 ⟨rfl, rfl⟩⟩
  | @composed t ts build ht ih =>
    intro c hc hn hids
    have hc' : ∀ m ∈ ts, c.Settles g m := fun m hm => hc.part (ht.part hm (.refl m))
    have hn' : ∀ m ∈ ts, c.NamesBodies g m := fun m hm => hn.part (ht.part hm (.refl m))
    obtain ⟨ws, hrun⟩ := InTurn.settled ih hc' hn' hids
    exact ⟨ws, (yields_composed ht).2 ⟨_, hrun, ht.byName⟩⟩
  | reference i d args bases =>
    intro c hc hn hids
    rw [guard]
    exact reference_settled hc hn hids
  | unknown ht =>
    intro c hc hn hids
    obtain ⟨w, hname, hw⟩ := yields_unknown ht
    exact ⟨_, hw.2 ⟨hname uidOf, rfl⟩⟩

end Compile

/-- For a settled type nothing but warnings is added. -/
theorem typeGuard_settled (hc : c.Settles g t) (hn : c.NamesBodies g t)
    (hids : c.ids.Follows uidOf) :
    ∃ ws, Yields (typeGuard g t) c (t.byName g uidOf) { c with warnings := ws } :=
  Compile.guard_settled t hc hn hids

/-! ## Requests -/

/-- A request to a compiler. -/
inductive GuardRequest where
  /-- The guard of a type. -/
  | type (t : Ty)
  /-- The guards of the members of a type. -/
  | members (t : Ty)

/-- What a request is answered with. -/
inductive GuardAnswer where
  | type (guard : Guard)
  | members (guards : List FieldGuard)

namespace GuardRequest

/-- The type that a request is about. -/
def subject : GuardRequest → Ty
  | .type t | .members t => t

/-- Answer a request. -/
def answer (g : Graph) : GuardRequest → Compile GuardAnswer
  | .type t => do
    let guard ← typeGuard g t
    return .type guard
  | .members t => do
    let guards ← memberGuards g t
    return .members guards

/-- Answer requests one after another. -/
def answerAll (g : Graph) : List GuardRequest → Compile (List GuardAnswer)
  | [] => return []
  | r :: rs => do
    let first ← r.answer g
    let rest ← answerAll g rs
    return first :: rest

/-- The types that are compiled for a request. -/
def compiled (g : Graph) : GuardRequest → List Ty
  | .type t => [t]
  | .members t => ((fieldsOf g t).getD []).map TyField.type

/-- The guard of a field by name. -/
def fieldByName (g : Graph) (uidOf : Declaration → String) (f : TyField) : FieldGuard :=
  ⟨f.name, f.optional,
    if f.optional then (f.type.byName g uidOf).optional else f.type.byName g uidOf⟩

/-- The answer by name. -/
def answerByName (g : Graph) (uidOf : Declaration → String) : GuardRequest → GuardAnswer
  | .type t => .type (t.byName g uidOf)
  | .members t => .members (((fieldsOf g t).getD []).map (fieldByName g uidOf))

/-- What is compiled for a request occurs where its type occurs. -/
theorem occurs_compiled {r : GuardRequest} (hocc : ∀ u : Ty, u.Part r.subject → g.Occurs whole u)
    (ht : t ∈ r.compiled g) : ∀ u : Ty, u.Part t → g.Occurs whole u := by
  intro u hu
  cases r with
  | type s =>
    rw [mem_singleton.1 ht] at hu
    exact hocc u hu
  | members s =>
    obtain ⟨f, hf, rfl⟩ := mem_map.1 ht
    cases hfields : fieldsOf g s with
    | none =>
      rw [hfields] at hf
      cases hf
    | some fields =>
      rw [hfields] at hf
      rcases (fieldsOf_occurs hfields hf).part hu with hpart | hbody
      · exact hocc u hpart
      · exact .inr hbody

theorem answer_grows {r : GuardRequest} {a : GuardAnswer} (h : Yields (r.answer g) c a c') :
    c.Grows [] c' := by
  cases r with
  | type t =>
    obtain ⟨guard, c₁, hguard, hp⟩ := yields_bind.1 h
    obtain ⟨-, rfl⟩ := yields_pure.1 hp
    exact (typeGuard_grows hguard).1
  | members t =>
    obtain ⟨guards, hguards, -⟩ := yields_map.1 h
    exact (memberGuards_grows hguards).1

theorem answerAll_grows : ∀ {rs : List GuardRequest} {c c' : Compiler} {as : List GuardAnswer},
    Yields (answerAll g rs) c as c' → c.Grows [] c'
  | [], c, c', as, h => by
    obtain ⟨-, rfl⟩ := yields_pure.1 h
    exact .refl _ _
  | r :: rs, c, c', as, h => by
    obtain ⟨first, c₁, hfirst, h⟩ := yields_bind.1 h
    obtain ⟨rest, hrest, -⟩ := yields_map.1 h
    exact (answer_grows hfirst).trans (answerAll_grows hrest)

theorem answerAll_append {rs ss : List GuardRequest} {as : List GuardAnswer}
    (h : Yields (answerAll g (rs ++ ss)) c as c') :
    ∃ bs cs c₁, Yields (answerAll g rs) c bs c₁ ∧ Yields (answerAll g ss) c₁ cs c' := by
  induction rs generalizing c as with
  | nil => exact ⟨[], as, c, yields_pure.2 ⟨rfl, rfl⟩, h⟩
  | cons r rs ih =>
    rw [cons_append, answerAll] at h
    obtain ⟨first, c₁, hfirst, h⟩ := yields_bind.1 h
    obtain ⟨rest, hrest, -⟩ := yields_map.1 h
    obtain ⟨bs, cs, c₃, hbs, hcs⟩ := ih hrest
    refine ⟨first :: bs, cs, c₃, ?_, hcs⟩
    rw [answerAll]
    exact yields_bind.2 ⟨_, _, hfirst, yields_bind.2 ⟨_, _, hbs, yields_pure.2 ⟨rfl, rfl⟩⟩⟩

theorem map_fieldByName (fields : List TyField) :
    (fields.zip ((fields.map TyField.type).map (Ty.byName g uidOf))).map
      (fun p => p.1.member p.2) = fields.map (fieldByName g uidOf) := by
  induction fields with
  | nil => rfl
  | cons f fields ih => exact congrArg (fieldByName g uidOf f :: ·) ih

/-- A request is answered by name, and what is compiled for it is settled. -/
theorem answer_settles (hagree : g.NamesAgree uidOf whole) {r : GuardRequest} {a : GuardAnswer}
    (h : Yields (r.answer g) c a c') (hocc : ∀ u : Ty, u.Part r.subject → g.Occurs whole u)
    (hids : c'.ids.Follows uidOf) (hc : c.Sound g uidOf whole []) :
    a = r.answerByName g uidOf ∧ c'.Sound g uidOf whole [] ∧
      ∀ t ∈ r.compiled g, c'.Settles g t := by
  have hparts := fun t => occurs_compiled (t := t) hocc
  cases r with
  | type t =>
    obtain ⟨guard, c₁, hguard, hp⟩ := yields_bind.1 h
    obtain ⟨rfl, rfl⟩ := yields_pure.1 hp
    obtain ⟨names, hrun⟩ := typeGuard_compiles hguard
    obtain ⟨hnamed, hsettled⟩ := hrun.settles hagree hparts hids hc
    exact ⟨by rw [singleton_inj.1 hnamed]; rfl, hsettled⟩
  | members t =>
    obtain ⟨guards, hguards, rfl⟩ := yields_map.1 h
    cases hfields : fieldsOf g t with
    | none =>
      obtain ⟨ws, -, hnone⟩ := yields_memberGuards_none hfields
      obtain ⟨rfl, rfl⟩ := hnone.1 hguards
      refine ⟨by simp [answerByName, hfields], hc.of_arena_eq rfl, ?_⟩
      simp [compiled, hfields]
    | some fields =>
      obtain ⟨rs, hrun, rfl⟩ := (yields_memberGuards hfields).1 hguards
      simp only [compiled, answerByName, hfields, Option.getD_some] at hparts ⊢
      obtain ⟨names, hrun⟩ := hrun.run
      obtain ⟨rfl, hsettled⟩ := hrun.settles hagree hparts hids hc
      exact ⟨by rw [map_fieldByName], hsettled⟩

/-- A request for what is settled is answered by name, and nothing but warnings is added. -/
theorem answer_settled {r : GuardRequest} (hc : ∀ t ∈ r.compiled g, c.Settles g t)
    (hn : ∀ t ∈ r.compiled g, c.NamesBodies g t) (hids : c.ids.Follows uidOf) :
    ∃ ws, Yields (r.answer g) c (r.answerByName g uidOf) { c with warnings := ws } := by
  cases r with
  | type t =>
    obtain ⟨ws, hguard⟩ := typeGuard_settled (hc t mem_cons_self)
      (hn t mem_cons_self) hids
    exact ⟨ws, yields_bind.2 ⟨_, _, hguard, yields_pure.2 ⟨rfl, rfl⟩⟩⟩
  | members t =>
    cases hfields : fieldsOf g t with
    | none =>
      obtain ⟨ws, -, hnone⟩ := yields_memberGuards_none hfields
      simp only [answerByName, hfields, Option.getD_none, map_nil]
      exact ⟨_, yields_map.2 ⟨_, hnone.2 ⟨rfl, rfl⟩, rfl⟩⟩
    | some fields =>
      simp only [compiled, answerByName, hfields, Option.getD_some] at hc hn ⊢
      obtain ⟨ws, hrun⟩ := Compile.InTurn.settled (fun _ _ => typeGuard_settled) hc hn hids
      have hguards := (yields_memberGuards hfields).2 ⟨_, hrun, (map_fieldByName fields).symm⟩
      exact ⟨ws, yields_map.2 ⟨_, hguards, rfl⟩⟩

/-- Each request is answered by name, and what is compiled for it stays settled. -/
theorem answerAll_settles (hagree : g.NamesAgree uidOf whole) : ∀ {rs : List GuardRequest}
    {c c' : Compiler} {as : List GuardAnswer}, Yields (answerAll g rs) c as c' →
      (∀ r ∈ rs, ∀ u : Ty, u.Part r.subject → g.Occurs whole u) → c'.ids.Follows uidOf →
      c.Sound g uidOf whole [] → c'.Sound g uidOf whole [] ∧ ∀ r a, (r, a) ∈ rs.zip as →
        a = r.answerByName g uidOf ∧ ∀ t ∈ r.compiled g, c'.Settles g t
  | [], c, c', as, h, hocc, hids, hc => by
    obtain ⟨-, rfl⟩ := yields_pure.1 h
    exact ⟨hc, by simp⟩
  | s :: rs, c, c', as, h, hocc, hids, hc => by
    obtain ⟨first, c₁, hfirst, h⟩ := yields_bind.1 h
    obtain ⟨rest, hrest, rfl⟩ := yields_map.1 h
    have hgrows := answerAll_grows hrest
    obtain ⟨heq, hc₁, hsettled⟩ := answer_settles hagree hfirst (hocc s mem_cons_self)
      (hgrows.ids.follows hids) hc
    obtain ⟨hc', hlater⟩ := answerAll_settles hagree hrest
      (fun s hs => hocc s (mem_cons_of_mem _ hs)) hids hc₁
    refine ⟨hc', fun r a hmem => ?_⟩
    obtain hhere | hmem := mem_cons.1 hmem
    · cases hhere
      exact ⟨heq, fun t ht => (hsettled t ht).grows hgrows⟩
    · exact hlater r a hmem

end GuardRequest

/-- Requests are answered one after another by a compiler that has no named guards at first. Each
request adds named guards at the end of those there are, changes none of them, and keeps the names
distinct. Made again at any later point, after the requests `between`, it is answered again, by the
same answer, and no named guard is added. One name must stand for one body in the types the requests
are about (names are made from texts). -/
theorem requests_repeat {requests : List GuardRequest} {ids : Registry}
    {warnings : List GuardWarning} {answers : List GuardAnswer} {c : Compiler}
    (h : Yields (GuardRequest.answerAll g requests) ⟨ids, Arena.empty, warnings⟩ answers c)
    (hids : c.ids.Follows uidOf)
    (hagree : g.NamesAgree uidOf (.tuple 0 (requests.map GuardRequest.subject)))
    {before after : List GuardRequest} {r : GuardRequest}
    (hsplit : requests = before ++ r :: after) :
    ∃ earlier a c₁ c₂,
      Yields (GuardRequest.answerAll g before) ⟨ids, Arena.empty, warnings⟩ earlier c₁ ∧
      Yields (r.answer g) c₁ a c₂ ∧
      c₁.arena.keys <+: c₂.arena.keys ∧
      (∀ key b, c₁.arena.lookup key = some b → c₂.arena.lookup key = some b) ∧
      c₂.arena.keys.Nodup ∧
      (∀ key, key ∈ c₂.arena.keys ↔ (c₂.arena.lookup key).isSome = true) ∧
      ∀ between rest, after = between ++ rest → ∃ later c₃ c₄,
        Yields (GuardRequest.answerAll g between) c₂ later c₃ ∧
        Yields (r.answer g) c₃ a c₄ ∧ c₄.arena = c₃.arena := by
  subst hsplit
  have hocc : ∀ s ∈ before ++ r :: after, ∀ u : Ty, u.Part s.subject →
      g.Occurs (.tuple 0 ((before ++ r :: after).map GuardRequest.subject)) u :=
    fun s hs u hu => .inl (.tuple (mem_map_of_mem hs) hu)
  have hr : r ∈ before ++ r :: after := mem_append_right _ mem_cons_self
  have hstart : Compiler.Sound g uidOf
      (.tuple 0 ((before ++ r :: after).map GuardRequest.subject)) []
      ⟨ids, Arena.empty, warnings⟩ := by
    refine ⟨?_, ?_⟩
    · intro e he
      cases he
    · intro key hkey
      cases hkey
  -- the run passes through the states before and after the request
  obtain ⟨earlier, _, c₁, hearlier, hrest⟩ := GuardRequest.answerAll_append h
  obtain ⟨a, c₂, ha, hrest⟩ := yields_bind.1 hrest
  obtain ⟨others, c', hafter, hp⟩ := yields_bind.1 hrest
  obtain ⟨-, rfl⟩ := yields_pure.1 hp
  have hgrows := GuardRequest.answer_grows ha
  have hids₂ : c₂.ids.Follows uidOf := (GuardRequest.answerAll_grows hafter).ids.follows hids
  obtain ⟨hc₁, -⟩ := GuardRequest.answerAll_settles hagree hearlier
    (fun s hs => hocc s (mem_append_left _ hs)) (hgrows.ids.follows hids₂) hstart
  obtain ⟨rfl, hc₂, hsettled⟩ := GuardRequest.answer_settles hagree ha (hocc r hr) hids₂ hc₁
  refine ⟨earlier, _, c₁, c₂, hearlier, ha, ?_, ?_, ?_, ?_, ?_⟩
  · exact hgrows.entries.map _
  · intro key b hb
    obtain ⟨new, hnew⟩ := hgrows.entries
    unfold Arena.lookup at hb ⊢
    rw [← hnew, List.lookup_append, hb]
    rfl
  · exact hgrows.nodup ((GuardRequest.answerAll_grows hearlier).nodup nodup_nil)
  · exact fun key => Arena.lookup_isSome.symm
  · intro between rest hsplit
    subst hsplit
    obtain ⟨later, _, c₃, hlater, hlast⟩ := GuardRequest.answerAll_append hafter
    have hids₃ : c₃.ids.Follows uidOf := (GuardRequest.answerAll_grows hlast).ids.follows hids
    obtain ⟨hc₃, -⟩ := GuardRequest.answerAll_settles hagree hlater
      (fun s hs => hocc s (mem_append_right _ (mem_cons_of_mem _ (mem_append_left _ hs)))) hids₃ hc₂
    obtain ⟨ws, hagain⟩ := GuardRequest.answer_settled (r := r)
      (fun t ht => (hsettled t ht).grows (GuardRequest.answerAll_grows hlater))
      (fun t ht => hc₃.namesBodies hagree hids₃ (GuardRequest.occurs_compiled (hocc r hr) ht)) hids₃
    exact ⟨later, c₃, _, hlater, hagain, rfl⟩

end

/-- The guard of a type that contains itself, then the guards of its members, then the first again. -/
theorem requests_repeat_linked : ∃ answers c, Yields (GuardRequest.answerAll Linked.graph
        [.type Linked.node, .members Linked.node, .type Linked.node])
        (Compiler.empty .path) answers c ∧
      c.ids.Follows (fun _ => "list@Node") ∧
      Linked.graph.NamesAgree (fun _ => "list@Node")
        (.tuple 0 [Linked.node, Linked.node, Linked.node]) ∧
      ∃ a c₂ later c₃ c₄,
        Yields ((GuardRequest.type Linked.node).answer Linked.graph) (Compiler.empty .path) a c₂ ∧
        Yields (GuardRequest.answerAll Linked.graph [.members Linked.node]) c₂ later c₃ ∧
        Yields ((GuardRequest.type Linked.node).answer Linked.graph) c₃ a c₄ ∧
        c₄.arena = c₃.arena := by
  have hrun : Yields (GuardRequest.answerAll Linked.graph
      [.type Linked.node, .members Linked.node, .type Linked.node]) (.empty .path)
      [.type (.ref "list@Node"), .members [⟨"value", false, .kind "number"⟩,
          ⟨"next", true, .any [.kind "undefined", .any [.ref "list@Node", .kind "null"]]⟩],
        .type (.ref "list@Node")] Linked.compiled := by
    cbv
  have hagree : Linked.graph.NamesAgree (fun _ => "list@Node")
      (.tuple 0 [Linked.node, Linked.node, Linked.node]) :=
    Graph.namesAgree_of_eq (i := 0) (by
      simp +contextual [Graph.pool, Linked.graph, Linked.body, Linked.node])
  refine ⟨_, _, hrun, Linked.follows, hagree, ?_⟩
  obtain ⟨earlier, a, c₁, c₂, hbefore, ha, -, -, -, -, hagain⟩ :=
    requests_repeat hrun Linked.follows hagree (nil_append _).symm
  obtain ⟨-, rfl⟩ := yields_pure.1 hbefore
  obtain ⟨later, c₃, c₄, hlater, hsame, harena⟩ := hagain [.members Linked.node] _ rfl
  exact ⟨a, c₂, later, c₃, c₄, ha, hlater, hsame, harena⟩

end Componentry
