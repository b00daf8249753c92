import Componentry.Proofs.Guard.Inclusion
import Componentry.Proofs.Guard.Repetition
import Componentry.Proofs.Types.Transparency

/-!
# Structural types

A type is structural if it is built from the built-in types other than `any`, literals, unions,
arrays, tuples, and object types all of whose fields are required (`Ty.Structural`). It refers to no
declaration, and no members are merged in it.

For structural types in which no node occurs twice, assignability is sound: a value that passes the
guard of the source passes the guard of the target (`assignable_guard_accepts`). The table of the
comparison cannot interfere, so a source that is assignable fits plainly, and then its values are
values of the target (`sat_of_plain`).
-/

namespace Componentry

open List

variable {i : NodeId} {uidOf : Declaration → String} {self : Ty → Ty → Option Bool}

/-- The type is built without references, intersections, optional fields and `any`. -/
inductive Ty.Structural : Ty → Prop
  | primitive {i : NodeId} {name : String} (hany : name ≠ "any") : Ty.Structural (.primitive i name)
  | literal {i : NodeId} {w : Literal} : Ty.Structural (.literal i w)
  | union {i : NodeId} {members : List Ty} (h : ∀ m ∈ members, Ty.Structural m) :
      Ty.Structural (.union i members)
  | array {i : NodeId} {e : Ty} (h : Ty.Structural e) : Ty.Structural (.array i e)
  | tuple {i : NodeId} {elements : List Ty} (h : ∀ e ∈ elements, Ty.Structural e) :
      Ty.Structural (.tuple i elements)
  | object {i : NodeId} {fields : List TyField} (hrequired : ∀ f ∈ fields, f.optional = false)
      (h : ∀ f ∈ fields, Ty.Structural f.type) : Ty.Structural (.object i fields)

namespace Ty.Structural

variable {g : Graph} {t u : Ty}

@[simp]
theorem union_iff {members : List Ty} :
    (Ty.union i members).Structural ↔ ∀ m ∈ members, m.Structural :=
  ⟨by rintro ⟨⟩; assumption, .union⟩

@[simp]
theorem array_iff {e : Ty} : (Ty.array i e).Structural ↔ e.Structural :=
  ⟨by rintro ⟨⟩; assumption, .array⟩

@[simp]
theorem tuple_iff {es : List Ty} : (Ty.tuple i es).Structural ↔ ∀ e ∈ es, e.Structural :=
  ⟨by rintro ⟨⟩; assumption, .tuple⟩

@[simp]
theorem object_iff {fields : List TyField} : (Ty.object i fields).Structural ↔
    ∀ f ∈ fields, f.optional = false ∧ f.type.Structural :=
  ⟨by rintro ⟨⟩ f hf; constructor <;> solve_by_elim,
    fun h => .object (fun f hf => (h f hf).1) fun f hf => (h f hf).2⟩

theorem part (h : t.Structural) (hu : u.Part t) : u.Structural := by
  induction hu with
  | refl => exact h
  | union hm _ ih => exact ih (union_iff.1 h _ hm)
  | intersection => cases h
  | tuple hm _ ih => exact ih (tuple_iff.1 h _ hm)
  | array _ ih => exact ih (array_iff.1 h)
  | object hf _ ih => exact ih (object_iff.1 h _ hf).2

theorem parts (h : t.Structural) : ∀ p ∈ g.parts t, p.Structural := by
  intro p hp
  cases h with
  | primitive => cases hp
  | literal => cases hp
  | union h => exact h p hp
  | array h => exact (mem_singleton.1 hp) ▸ h
  | tuple h => exact h p hp
  | object _ h =>
    obtain ⟨f, hf, rfl⟩ := mem_map.1 hp
    exact h f hf

theorem inside (h : t.Structural) (hu : g.Inside t u) : u.Structural := by
  obtain ⟨q, hq⟩ := hu
  induction hq with
  | here => exact h
  | inside hpart _ ih => exact ih (h.parts _ (mem_of_getElem? hpart))

theorem not_isUnknown (h : t.Structural) : t.isUnknown = false := by
  cases h <;> rfl

theorem unwrap? (h : t.Structural) : g.unwrap? t = none := by
  cases h <;> rfl

/-- Nothing is merged in a structural source. -/
theorem mergesFit (h : t.Structural) (target : Ty) : MergesFit g target t :=
  fun _ _ _ hi => by cases h.inside hi

/-! ## The guard of a structural type -/

/-- The values do not depend on graphs, identifiers and names to follow. -/
theorem sat_congr (h : t.Structural) {g' : Graph} {uidOf' : Declaration → String} {n n' : Nat}
    (v : Value) : t.Sat g uidOf n v ↔ t.Sat g' uidOf' n' v := by
  induction h generalizing v with
  | primitive | literal => rw [Ty.Sat, Ty.Sat]
  | union _ ih =>
    rw [Ty.Sat, Ty.Sat]
    exact exists_congr fun m => exists_congr fun hm => ih m hm v
  | array _ ih =>
    rw [Ty.Sat, Ty.Sat]
    exact exists_congr fun vs => and_congr_right fun _ => forall₂_congr fun w _ => ih w
  | tuple _ ih =>
    rw [Ty.Sat, Ty.Sat]
    refine exists_congr fun vs => and_congr_right fun _ => and_congr_right fun _ => ?_
    exact forall₂_congr fun i hi => forall₂_congr fun w _ => ih _ (getElem_mem hi) w
  | object _ _ ih =>
    rw [Ty.Sat, Ty.Sat]
    refine exists_congr fun entries => and_congr_right fun _ => ?_
    exact forall₂_congr fun f hf => or_congr_right (ih f hf _)

/-- Compiling has a result in every state, and only adds warnings. -/
theorem yields_typeGuard (h : t.Structural) {c : Compiler} (hids : c.ids.Follows uidOf) :
    ∃ ws, Yields (typeGuard g t) c (t.byName g uidOf) { c with warnings := ws } := by
  have hnone : ∀ {i : NodeId} {d : Declaration} {args : List Ty} {bases : List Declaration},
      ¬ (Ty.reference i d args bases).Part t := by
    intro i d args bases hpart
    cases h.part hpart
  exact typeGuard_settled (fun _ _ _ _ hpart => absurd hpart hnone)
    (fun _ _ _ _ hpart => absurd hpart hnone) hids

/-- The guard refers to no name: a compiler without named guards has none afterwards. -/
theorem not_mem_refs (h : t.Structural) {key : String} : key ∉ (t.byName g uidOf).refs := by
  intro hkey
  -- compiled by a compiler that knows nothing, the guard could refer only to what it knows then
  have hids : Registry.Follows ⟨.path, []⟩ uidOf := by
    intro d u hu
    exact absurd (Registry.mem_of_given hu) not_mem_nil
  obtain ⟨ws, hyields⟩ := h.yields_typeGuard (g := g) (c := ⟨⟨.path, []⟩, Arena.empty, []⟩) hids
  obtain hkey | hkey := (typeGuard_grows hyields).2 key hkey
  · exact absurd hkey not_mem_nil
  · exact absurd hkey not_mem_nil

/-- The guard that compiling gives in any state accepts exactly the values of the type, whatever
names stand for. -/
theorem guard_sat (h : t.Structural) (c : Compiler) (uidOf : Declaration → String) (m : Nat) :
    ∃ check c', Yields (typeGuard g t) c check c' ∧
      ∀ (resolve : String → Option Guard) (n : Nat) (v : Value),
        Guard.checkWithin resolve n check v = true ↔ t.Sat g uidOf m v := by
  -- identifiers that agree with those the compiler has given already
  let given : Declaration → String := fun d => (c.ids.given? d).getD ""
  have hids : c.ids.Follows given := by
    intro d u hu
    simp only [given, hu, Option.getD_some]
  obtain ⟨ws, hyields⟩ := h.yields_typeGuard (g := g) hids
  refine ⟨_, _, hyields, fun resolve n v => ?_⟩
  have hread : ReadsNames g given t Arena.empty (Guard.followWithin resolve n) n :=
    fun _ _ hkey => absurd hkey not_mem_nil
  rw [Guard.checkWithin_eq_accepts, accepts_byName hread t v (fun u hu => Or.inl hu)
    fun key hkey => absurd hkey h.not_mem_refs]
  exact h.sat_congr v

end Ty.Structural

/-! ## Plain comparisons of structural types -/

theorem eval_of_all {ps : List Probe} (h : (Clause.all ps).eval self = some true) :
    ∀ p ∈ ps, p.eval self = some true := by
  induction ps with
  | nil => simp
  | cons p ps ih =>
    obtain ⟨b, hp, hps⟩ := Option.bind_eq_some_iff.1 h
    cases b with
    | false => cases hps
    | true => exact forall_mem_cons.2 ⟨hp, ih hps⟩

theorem eval_of_any {ps : List Probe} (h : (Clause.any ps).eval self = some true) :
    ∃ p ∈ ps, p.eval self = some true := by
  induction ps with
  | nil => cases h
  | cons p ps ih =>
    obtain ⟨b, hp, hps⟩ := Option.bind_eq_some_iff.1 h
    cases b with
    | true => exact ⟨p, mem_cons_self, hp⟩
    | false =>
      obtain ⟨q, hq, heval⟩ := ih hps
      exact ⟨q, mem_cons_of_mem _ hq, heval⟩

section Plain

variable {g : Graph} {uidOf : Declaration → String} {t s : Ty} {m : Nat} {v : Value}

theorem Ty.Structural.sat_of_same (ht : t.Structural) (hs : s.Structural)
    (hsame : t.same s = true) (h : s.Sat g uidOf m v) : t.Sat g uidOf m v := by
  have hrefs : g.ReferencesAgree uidOf Ty.Structural Ty.Structural := by
    intro i j d e as bs bases bases' n v href
    cases href
  exact sat_of_same_parts hrefs (fun _ hu => ht.part hu) (fun _ hu => hs.part hu) hsame h

/-- One step: if the pairs that a clause looks at fit only values, so does the clause. -/
theorem sat_of_clause {cl : Clause}
    (ih : ∀ {t s : Ty}, t.Structural → s.Structural → self t s = some true →
      ∀ v : Value, s.Sat g uidOf m v → t.Sat g uidOf m v) (hfor : Clause.For g t s cl)
    (ht : t.Structural) (hs : s.Structural) (h : cl.eval self = some true)
    (hsat : s.Sat g uidOf m v) : t.Sat g uidOf m v := by
  cases hfor with
  | refused => cases eval_of_all h _ mem_cons_self
  | primitive =>
    exact sat_of_primitiveFits (Option.some.inj (eval_of_all h _ mem_cons_self)) hsat
  | sameDeclaration | classes => cases ht
  | unionSource =>
    rw [Ty.Sat] at hsat
    obtain ⟨s', hs', hsat⟩ := hsat
    exact ih ht (Ty.Structural.union_iff.1 hs s' hs') (eval_of_all h _ (mem_map_of_mem hs')) v hsat
  | unionTarget =>
    obtain ⟨p, hp, heval⟩ := eval_of_any h
    obtain ⟨t', ht', rfl⟩ := mem_map.1 hp
    rw [Ty.Sat]
    exact ⟨t', ht', ih (Ty.Structural.union_iff.1 ht t' ht') hs heval v hsat⟩
  | intersectionTarget => cases ht
  | intersectionSource => cases hs
  | unwrapSource hu => rw [hs.unwrap?] at hu; cases hu
  | unwrapTarget hu => rw [ht.unwrap?] at hu; cases hu
  | arrays =>
    have hfits := eval_of_all h _ mem_cons_self
    rw [Ty.Structural.array_iff] at ht hs
    exact sat_array (fun w _ => ih ht hs hfits w) hsat
  | arrayOfTuple =>
    refine sat_array_of_tuple (fun f hf w _ => ?_) hsat
    rw [Ty.Structural.array_iff] at ht
    exact ih ht (Ty.Structural.tuple_iff.1 hs f hf) (eval_of_all h _ (mem_map_of_mem hf)) w
  | tuples hlen =>
    refine sat_tuple hlen (fun q hq w _ => ?_) hsat
    obtain ⟨hq₁, hq₂⟩ := of_mem_zip hq
    rw [Ty.Structural.tuple_iff] at ht hs
    exact ih (ht _ hq₁) (hs _ hq₂)
      (eval_of_all h _ (mem_map_of_mem hq)) w
  | @objects i j fs gs =>
    refine sat_object (fun f hf => ?_) hsat
    obtain ⟨hrequired, hfield⟩ := Ty.Structural.object_iff.1 ht f hf
    have hfits := eval_of_all h _ (mem_map_of_mem hf)
    obtain ⟨b, hknown, hoptional⟩ | ⟨f', hfind, -, hpair⟩ := fieldProbe_cases gs f
    · -- a required field that is absent or optional in the source is refused
      rw [hknown] at hfits
      rw [(hoptional (Option.some.inj hfits)).2] at hrequired
      cases hrequired
    · rw [hpair] at hfits
      obtain ⟨hrequired', hfield'⟩ := Ty.Structural.object_iff.1 hs f' (findField_mem hfind)
      exact ⟨f', hfind, by simp [hrequired'], fun w _ => ih hfield hfield' hfits w⟩

/-- The values of a structural type that fits plainly. By induction on the steps that may stand
inside one another. -/
theorem sat_of_plain : ∀ (n : Nat) {t s : Ty}, t.Structural → s.Structural →
    plainWithin g n t s = some true → ∀ v : Value, s.Sat g uidOf m v → t.Sat g uidOf m v
  | 0, t, s, _, _, h, _, _ => by cases h
  | n + 1, t, s, ht, hs, h, v, hsat => by
    have h : plainStep g (plainWithin g n) t s = some true := h
    obtain hsettled | hrefused | hopen := settled_or t s
    · have hany : ∀ i, s ≠ .primitive i "any" := by
        rintro i rfl
        cases hs with
        | primitive hany => exact hany rfl
      exact sat_of_settled hany (fun hsame => ht.sat_of_same hs hsame hsat) hsettled hsat
    · rw [plainStep_refused hrefused] at h
      cases h
    · rw [plainStep_open (plainWithin_numberless n) hopen] at h
      exact sat_of_clause (sat_of_plain n) (for_clause t s) ht hs h hsat

end Plain

/-! ## Assignability and guards -/

/-- A structural tree that is assignable fits plainly: the table cannot have changed the answer. -/
theorem Ty.Structural.plain_of_assignable {g : Graph} {target source : Ty}
    (ht : target.Structural) (hs : source.Structural) (htree : g.IsTree target)
    (hstree : g.IsTree source) (h : assignable g target source = true) : Fits g target source := by
  obtain ⟨plain, tabled, c', hplain, hrun, -, hexact⟩ := answers_of_trees htree hstree
  have htabled : assignable g target source = tabled := by
    rw [assignable, assignable?, if_neg (by simp [ht.not_isUnknown]),
      show _ = some (tabled, c') from hrun]
    rfl
  obtain rfl : plain = true := by rw [← hexact (hs.mergesFit target), ← htabled, h]
  exact ⟨_, hplain _ (Nat.le_refl _)⟩

/-- **Assignability is sound for guards of structural types.** If no node occurs twice in the target
and in the source, both have guards, in whatever states these are compiled, and a value that passes
the guard of the source passes the guard of the target. It does not matter what names stand for, and
how deep they are followed. -/
theorem assignable_guard_accepts {g : Graph} {target source : Ty} (ht : target.Structural)
    (hs : source.Structural) (htree : g.IsTree target) (hstree : g.IsTree source)
    (h : assignable g target source = true) (c c' : Compiler) :
    ∃ check check' d d', Yields (typeGuard g target) c check d ∧
      Yields (typeGuard g source) c' check' d' ∧
      ∀ (resolve resolve' : String → Option Guard) (n n' : Nat) (v : Value),
        Guard.checkWithin resolve' n' check' v = true →
          Guard.checkWithin resolve n check v = true := by
  obtain ⟨bound, hfits⟩ := ht.plain_of_assignable hs htree hstree h
  obtain ⟨check, d, hcheck, haccepts⟩ := ht.guard_sat (g := g) c Declaration.name 0
  obtain ⟨check', d', hcheck', haccepts'⟩ := hs.guard_sat (g := g) c' Declaration.name 0
  refine ⟨check, check', d, d', hcheck, hcheck', fun resolve resolve' n n' v hv => ?_⟩
  exact (haccepts resolve n v).2 (sat_of_plain bound ht hs hfits v ((haccepts' resolve' n' v).1 hv))

/-- A graph of thirteen nodes, without references. -/
def thirteenNodes : Graph := ⟨13, []⟩

/-- A shelf with a size, a number or a text, and a list of texts on it. -/
def shelf : Ty :=
  .object 0 [
    .mk "size" (.union 1 [.primitive 2 "number", .primitive 3 "string"]) false,
    .mk "books" (.array 4 (.primitive 5 "string")) false]

/-- A shelf that is `"wide"` or `"low"`, with two texts on it, the second of which is `"atlas"`. -/
def smallShelf : Ty :=
  .object 6 [
    .mk "books" (.tuple 7 [.primitive 8 "string", .literal 9 (.text "atlas")]) false,
    .mk "size" (.union 10 [.literal 11 (.text "wide"), .literal 12 (.text "low")]) false]

theorem structural_shelf : shelf.Structural := by
  simp [shelf, TyField.optional, TyField.type, Ty.Structural.primitive]

theorem structural_smallShelf : smallShelf.Structural := by
  simp [smallShelf, TyField.optional, TyField.type, Ty.Structural.primitive, Ty.Structural.literal]

/-- What passes the guard of the small shelf passes the guard of the shelf. -/
theorem assignable_guard_accepts_shelf :
    shelf.Structural ∧ smallShelf.Structural ∧ thirteenNodes.IsTree shelf ∧
      thirteenNodes.IsTree smallShelf ∧ assignable thirteenNodes shelf smallShelf = true ∧
      ∃ check check' d d', Yields (typeGuard thirteenNodes shelf) (Compiler.empty .path) check d ∧
        Yields (typeGuard thirteenNodes smallShelf) (Compiler.empty .path) check' d' ∧
        ∀ (resolve resolve' : String → Option Guard) (n n' : Nat) (v : Value),
          Guard.checkWithin resolve' n' check' v = true →
            Guard.checkWithin resolve n check v = true := by
  have htree : thirteenNodes.IsTree shelf :=
    Graph.isTree_of_nodup rfl _ (by decide) (by decide)
  have hstree : thirteenNodes.IsTree smallShelf :=
    Graph.isTree_of_nodup rfl _ (by decide) (by decide)
  have hfits : assignable thirteenNodes shelf smallShelf = true := by decide +kernel
  exact ⟨structural_shelf, structural_smallShelf, htree, hstree, hfits,
    assignable_guard_accepts structural_shelf structural_smallShelf htree hstree hfits _ _⟩

end Componentry
