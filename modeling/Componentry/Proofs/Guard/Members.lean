import Componentry.Proofs.Guard.Repetition
import Componentry.Proofs.Guard.Unrolling

/-!
# The members and the whole

An object is tested for a type that has fields in two ways: by the guard of the type, and by the
guards of its members, each on the value under its name.

What passes as a whole passes member by member. The converse needs more, for two reasons. An
intersection may declare a name more than once: the guard of the type tests every declaration, the
guards of the members only the last one (`members_pass_alone`). And the guard of the type follows
the names that lead to the fields before it comes to them, so it reaches the bound on names earlier.
`whole_iff_members` is the equivalence without these two.

Both guards are read through the values of the type: `Graph.Declares.admits` takes a value of the
type apart into values of the declared fields, `Graph.Shaped.sat` puts it together.
-/

namespace Componentry

open List Guard

/-! ## Values of declared fields -/

/-- The object has a value of the field under its name, or leaves it out and may do so. -/
def TyField.Admits (g : Graph) (uidOf : Declaration → String) (n : Nat)
    (entries : List (String × Value)) (f : TyField) : Prop :=
  (f.optional = true ∧ (entries.lookup f.name).getD .undefined = .undefined) ∨
    f.type.Sat g uidOf n ((entries.lookup f.name).getD .undefined)

/-- Classes have no bodies. -/
def Graph.OpaqueClasses (g : Graph) (t : Ty) : Prop :=
  ∀ i d args bases, g.Occurs t (.reference i d args bases) → d.kind = .classDecl →
    g.target? i = none

section

variable {g : Graph} {uidOf : Declaration → String} {t : Ty} {f : TyField} {n k : Nat}
  {entries : List (String × Value)}

theorem TyField.Admits.mono (h : f.Admits g uidOf n entries) (hnk : n ≤ k) :
    f.Admits g uidOf k entries :=
  h.imp_right fun hsat => hsat.mono hnk

theorem Graph.Declares.admits (h : g.Declares t f) (hsat : t.Sat g uidOf n (.record entries)) :
    f.Admits g uidOf n entries := by
  induction h generalizing n with
  | object hf =>
    rw [Ty.Sat] at hsat
    obtain ⟨_, hrecord, hfields⟩ := hsat
    cases hrecord
    exact hfields _ hf
  | reference hbody _ ih =>
    rw [Ty.sat_reference, hbody] at hsat
    split at hsat
    · obtain ⟨_, hrecord, -⟩ := hsat
      cases hrecord
    · cases n with
      | zero => exact hsat.elim
      | succ n => exact (ih hsat).mono (Nat.le_succ n)
  | intersection hm _ ih =>
    rw [Ty.Sat] at hsat
    exact ih (hsat _ hm)

/-- One name more is followed for each reference on the way to the fields. -/
theorem Graph.Shaped.sat (h : g.Shaped k t) (hclasses : g.OpaqueClasses t)
    (hadmits : ∀ f, g.Declares t f → f.Admits g uidOf n entries) :
    t.Sat g uidOf (n + k) (.record entries) := by
  induction h with
  | @object k i fields =>
    rw [Ty.Sat]
    exact ⟨entries, rfl, fun f hf => (hadmits f (.object hf)).mono (Nat.le_add_right n k)⟩
  | @reference k i d args bases body hbody _ ih =>
    have hclass : d.kind ≠ .classDecl := by
      intro hk
      rw [hclasses i d args bases (Or.inl (.refl _)) hk] at hbody
      cases hbody
    rw [Ty.sat_reference, if_neg hclass, hbody]
    refine ih ?_ fun f hf => hadmits f (.reference hbody hf)
    rintro j e args' bases' (hpart | hocc)
    · exact hclasses j e args' bases' (.inr ⟨i, body, hbody, hpart⟩)
    · exact hclasses j e args' bases' (.inr hocc)
  | intersection _ ih =>
    rw [Ty.Sat]
    intro m hm
    refine ih m hm ?_ fun f hf => hadmits f (.intersection hm hf)
    exact fun j e args bases hocc =>
      hclasses j e args bases (hocc.imp_left (.intersection hm))

/-! ## Requests and their answers -/

/-- In a state that settles a type every name of its guard is defined. -/
theorem Compiler.Settles.knows {c : Compiler} (hids : c.ids.Follows uidOf) (h : c.Settles g t) :
    c.Knows [] (t.byName g uidOf).refs := by
  induction t using Ty.induct with
  | basic ht =>
    simp [ht.byName_bare.1, Compiler.Knows]
  | composed ht ih =>
    intro key hkey
    rw [ht.byName, ht.mem_refs (length_map _)] at hkey
    obtain ⟨r, hr, hkey⟩ := hkey
    obtain ⟨m, hm, rfl⟩ := mem_map.1 hr
    exact ih m hm (h.part (ht.part hm (.refl m))) key hkey
  | reference i d args bases =>
    intro key hkey
    obtain ⟨u, hu, hdefined⟩ := h i d args bases (.refl _)
    rw [Ty.byName, hids hu] at hkey
    split at hkey
    · cases hkey
    · next hk =>
        split at hkey
        · next hbody =>
            rw [refs, mem_singleton] at hkey
            rw [hkey]
            exact .inl (hdefined hk hbody)
        · cases hkey
  | @unknown t ht =>
    cases t with
    | deferred | unrepresentable => simp [Ty.byName, refs, Compiler.Knows]
    | _ => cases ht

namespace GuardRequest

/-- A compiler that has no named guards is asked for one thing after another. The request is one of
these and is answered so, and `a` holds the guards that are named in the end. One name stands for
one body in the types that the compiler is asked for. -/
def Served (g : Graph) (uidOf : Declaration → String) (request : GuardRequest)
    (answer : GuardAnswer) (a : Arena) : Prop :=
  ∃ requests answers ids warnings c,
    Yields (answerAll g requests) ⟨ids, Arena.empty, warnings⟩ answers c ∧
    c.ids.Follows uidOf ∧ g.NamesAgree uidOf (.tuple 0 (requests.map subject)) ∧
    (request, answer) ∈ requests.zip answers ∧ c.arena = a

/-- The answer is the one by name, and its guards accept the values of their types. -/
theorem Served.reads {request : GuardRequest} {answer : GuardAnswer} {a : Arena}
    (h : Served g uidOf request answer a) :
    answer = request.answerByName g uidOf ∧ ∀ t ∈ request.compiled g, ∀ n v,
      (checkWithin a.lookup n (t.byName g uidOf) v = true ↔ t.Sat g uidOf n v) := by
  obtain ⟨requests, answers, ids, warnings, c, hrun, hids, hagree, hmem, rfl⟩ := h
  have hocc : ∀ r ∈ requests, ∀ u : Ty, u.Part r.subject →
      g.Occurs (.tuple 0 (requests.map subject)) u :=
    fun r hr u hu => .inl (.tuple (mem_map_of_mem hr) hu)
  have hstart : Compiler.Sound g uidOf (.tuple 0 (requests.map subject)) []
      ⟨ids, Arena.empty, warnings⟩ := ⟨by simp [Arena.empty], by simp⟩
  have hclosed : ∀ e ∈ c.arena.entries, c.Knows [] e.2.refs := fun e he =>
    ((answerAll_grows hrun).closed e he).resolve_left (by simp [Arena.empty])
  obtain ⟨hsound, hsettles⟩ := answerAll_settles hagree hrun hocc hids hstart
  obtain ⟨hanswer, hsettled⟩ := hsettles _ _ hmem
  refine ⟨hanswer, fun t ht n v => ?_⟩
  exact checkWithin_byName hagree hsound hclosed n t v
    (occurs_compiled (hocc _ (of_mem_zip hmem).1) ht) ((hsettled t ht).knows hids)

/-- The guard of a member accepts what the field admits. -/
theorem checkWithin_fieldByName {a : Arena}
    (hreads : ∀ v, Guard.checkWithin a.lookup n (f.type.byName g uidOf) v = true ↔
      f.type.Sat g uidOf n v) :
    Guard.checkWithin a.lookup n (fieldByName g uidOf f).guard
        ((entries.lookup f.name).getD .undefined) = true ↔ f.Admits g uidOf n entries := by
  have hundefined : ∀ v : Value, v.tag = "undefined" ↔ v = .undefined := by
    intro v
    cases v <;> simp [Value.tag]
  simp only [TyField.Admits, ← hreads, Guard.checkWithin_eq_accepts, fieldByName]
  split
  · next hopt =>
      simp [Guard.optional, Guard.accepts, Guard.acceptsAny, hopt, hundefined]
  · next hopt => simp [hopt]

end GuardRequest

/-! ## The equivalence -/

/-- Of an object, for a type that has fields, whose guard `r` and whose members' guards come from one
compiler or from two, each asked for types in which one name stands for one body. If it passes as a
whole, it passes member by member. And if classes have no bodies, then unless a path of the test of
the whole follows more than `Guard.maxDepth` names, it passes as a whole if and only if it passes
member by member and is admitted by each declared field that another one of its name has
replaced. -/
theorem whole_iff_members {fields : List TyField} (hfields : fieldsOf g t = some fields)
    {r : Guard} {a : Arena} (hwhole : GuardRequest.Served g uidOf (.type t) (.type r) a)
    {guards : List FieldGuard} {b : Arena}
    (hmembers : GuardRequest.Served g uidOf (.members t) (.members guards) b)
    (entries : List (String × Value)) :
    (check a.lookup r (.record entries) = true → ∀ m ∈ guards,
      check b.lookup m.guard ((entries.lookup m.name).getD .undefined) = true) ∧
    (g.OpaqueClasses t → (∀ n, r.Follows a.lookup (.record entries) n → n ≤ maxDepth) →
      (check a.lookup r (.record entries) = true ↔ (∀ m ∈ guards,
          check b.lookup m.guard ((entries.lookup m.name).getD .undefined) = true) ∧
        ∀ f, g.Declares t f → f ∉ fields → f.Admits g uidOf maxDepth entries)) := by
  obtain ⟨hr, hreads⟩ := hwhole.reads
  obtain ⟨hguards, hfieldReads⟩ := hmembers.reads
  cases hr
  simp only [GuardRequest.answerByName, hfields, Option.getD_some] at hguards
  cases hguards
  obtain ⟨hshaped, hdeclared⟩ := fieldsOf_declares hfields
  have hpass : ∀ n v, checkWithin a.lookup n (t.byName g uidOf) v = true ↔
      t.Sat g uidOf n v := hreads t (mem_singleton_self t)
  have hmember : (∀ m ∈ fields.map (GuardRequest.fieldByName g uidOf),
      check b.lookup m.guard ((entries.lookup m.name).getD .undefined) = true) ↔
        ∀ f ∈ fields, f.Admits g uidOf maxDepth entries := by
    rw [forall_mem_map]
    refine forall₂_congr fun f hf => GuardRequest.checkWithin_fieldByName ?_
    refine hfieldReads f.type ?_ _
    simp only [GuardRequest.compiled, hfields, Option.getD_some]
    exact mem_map_of_mem hf
  have hadmits : check a.lookup (t.byName g uidOf) (.record entries) = true →
      ∀ f, g.Declares t f → f.Admits g uidOf maxDepth entries :=
    fun h f hf => hf.admits ((hpass _ _).1 h)
  rw [hmember]
  refine ⟨fun h f hf => hadmits h f (hdeclared f hf), fun hclasses hpaths => ⟨fun h => ?_, ?_⟩⟩
  · exact ⟨fun f hf => hadmits h f (hdeclared f hf), fun f hf _ => hadmits h f hf⟩
  · rintro ⟨hmerged, hreplaced⟩
    have hall : ∀ f, g.Declares t f → f.Admits g uidOf maxDepth entries := by
      intro f hf
      by_cases hmem : f ∈ fields
      · exact hmerged f hmem
      · exact hreplaced f hf hmem
    -- the names on the way to the fields count too, so the bound has to be raised and lowered again
    have hsat := (hpass _ _).2 (hshaped.sat hclasses hall)
    unfold check
    rw [checkWithin_stable maxDepth hpaths
      fun n hn => (hpaths n hn).trans (Nat.le_add_right _ _)]
    exact hsat

end

/-- A node that also has a text under `tag`. -/
def Linked.tagged : Ty :=
  .intersection 5 [Linked.node, .object 6 [.mk "tag" (.primitive 7 "string") false]]

theorem Linked.reference_tagged {t : Ty} (ht : t = tagged ∨ t = .tuple 0 [tagged, tagged])
    {id : NodeId} {d : Declaration} {args : List Ty} {bases : List Declaration}
    (h : Ty.reference id d args bases ∈ graph.pool t) : id = 0 ∧ d = decl := by
  obtain rfl | rfl := ht <;> simp_all [Graph.pool, graph, body, tagged, node]

/-- No field of a tagged node is replaced, and one name is followed at each level, so the guards agree
on all objects nested less than 200 levels deep. -/
theorem whole_iff_members_tagged :
    ∃ fields r guards a, fieldsOf Linked.graph Linked.tagged = some fields ∧
      GuardRequest.Served Linked.graph (fun _ => "list@Node") (.type Linked.tagged) (.type r) a ∧
      GuardRequest.Served Linked.graph (fun _ => "list@Node") (.members Linked.tagged)
        (.members guards) a ∧
      Linked.graph.OpaqueClasses Linked.tagged ∧
      ∀ entries, (Value.record entries).depth < 200 →
        (∀ n, r.Follows a.lookup (.record entries) n → n ≤ maxDepth) ∧
        (check a.lookup r (.record entries) = true ↔ ∀ m ∈ guards,
          check a.lookup m.guard ((entries.lookup m.name).getD .undefined) = true) := by
  let requests : List GuardRequest := [.type Linked.tagged, .members Linked.tagged]
  let r : Guard := .all [.ref "list@Node", .shape [.mk "tag" false (.kind "string")]]
  let next : Guard := .any [.ref "list@Node", .kind "null"]
  let guards : List FieldGuard := [⟨"value", false, .kind "number"⟩, ⟨"next", true, next.optional⟩,
    ⟨"tag", false, .kind "string"⟩]
  let a : Arena := Linked.compiled.arena
  have hrun : Yields (GuardRequest.answerAll Linked.graph requests) (Compiler.empty .path)
      [.type r, .members guards] Linked.compiled := by
    cbv
  have hagree : Linked.graph.NamesAgree (fun _ => "list@Node")
      (.tuple 0 (requests.map GuardRequest.subject)) :=
    Graph.namesAgree_of_eq fun h => (Linked.reference_tagged (.inr rfl) h).1
  have hserved : ∀ request answer, (request, answer) ∈ requests.zip [.type r, .members guards] →
      GuardRequest.Served Linked.graph (fun _ => "list@Node") request answer a :=
    fun _ _ hmem => ⟨_, _, _, _, _, hrun, Linked.follows, hagree, hmem, rfl⟩
  have hfields : fieldsOf Linked.graph Linked.tagged = some [
      .mk "value" (.primitive 2 "number") false,
      .mk "next" (.union 3 [Linked.node, .primitive 4 "null"]) true,
      .mk "tag" (.primitive 7 "string") false] := by
    rfl
  have hclasses : Linked.graph.OpaqueClasses Linked.tagged := by
    intro i d args bases hocc hclass
    rw [(Linked.reference_tagged (.inl rfl) hocc.mem_pool).2] at hclass
    cases hclass
  have hcontractive : a.Contractive :=
    Arena.contractive_of_exposed (by simp [a, Linked.compiled, exposed])
  have hwhole := hserved (.type Linked.tagged) (.type r) (by simp [requests])
  have hmembers := hserved (.members Linked.tagged) (.members guards) (by simp [requests])
  refine ⟨_, r, guards, a, hfields, hwhole, hmembers, hclasses, fun entries hdepth => ?_⟩
  have hpaths : ∀ n, r.Follows a.lookup (.record entries) n → n ≤ maxDepth := by
    intro n hn
    have hlong : n ≤ 1 * ((Value.record entries).depth + 1) := hcontractive.follows_le hn
    show n ≤ 256
    omega
  refine ⟨hpaths, ?_⟩
  rw [(whole_iff_members hfields hwhole hmembers entries).2 hclasses hpaths]
  refine and_iff_left fun f hf hreplaced => absurd ?_ hreplaced
  cases hf with
  | intersection hm hf =>
    simp only [mem_cons, not_mem_nil, or_false] at hm
    obtain rfl | rfl := hm
    · cases hf with
      | reference hbody hf =>
        cases hbody
        cases hf with
        | object hf => exact mem_append_left [_] hf
    · cases hf with
      | object hf =>
        rw [mem_singleton.1 hf]
        simp

/-- An object type with one field. -/
def Ty.ofField (i : NodeId) (name primitive : String) : Ty :=
  .object i [.mk name (.primitive (i + 1) primitive) false]

/-- Of two declarations of a name the members keep the second, and a text passes that one alone. -/
theorem members_pass_alone : ∃ r guards c c',
      Yields (typeGuard Graph.empty (.intersection 0 [.ofField 1 "a" "number",
        .ofField 3 "a" "string"])) (Compiler.empty .path) r c ∧
      Yields (memberGuards Graph.empty (.intersection 0 [.ofField 1 "a" "number",
        .ofField 3 "a" "string"])) (Compiler.empty .path) guards c' ∧
      check c.arena.lookup r (.record [("a", .text "on")]) = false ∧
      guards.map (·.name) = ["a"] ∧
      ∀ m ∈ guards, check c'.arena.lookup m.guard (.text "on") = true := by
  refine ⟨.all [.shape [.mk "a" false (.kind "number")], .shape [.mk "a" false (.kind "string")]],
    [⟨"a", false, .kind "string"⟩], .empty .path, Compiler.empty .path, ?_, ?_, by decide,
    rfl, ?_⟩
  · cbv
  · cbv
  · simp [check, checkWithin_eq_accepts, accepts, Value.tag]

end Componentry
