import Componentry.Proofs.Guard.Alike
import Componentry.Proofs.Guard.Members
import Componentry.Proofs.Types.Tree
import Componentry.Proofs.Types.Written

/-!
# Types that are the same can stand for each other

Object types are compared one way: every field of the first is looked up in the second, which has as
many. If no name occurs twice, the fields of the second are all met, so the comparison is symmetric;
it is transitive too (`Ty.exact`). Types that are the same have the same values, so their guards
accept the same values (`same_types_guards`).
-/

namespace Componentry

open List

variable {t u s : Ty} {g : Graph} {uidOf : Declaration → String}

/-- No object type in the type has a name twice, and no reference has arguments. -/
structure Ty.Tidy (t : Ty) : Prop where
  names : ∀ {i fields}, (Ty.object i fields).Part t → (fields.map TyField.name).Nodup
  args : ∀ {i d args bases}, (Ty.reference i d args bases).Part t → args = []

theorem Ty.Tidy.part (h : t.Tidy) (hu : u.Part t) : u.Tidy :=
  ⟨fun hpart => h.names (hpart.trans hu), fun hpart => h.args (hpart.trans hu)⟩

/-! ## Comparing both ways -/

theorem Binary64.same_comm (a b : Binary64) : a.same b = b.same a := by
  cases a with
  | nan => cases b <;> rfl
  | infinite s =>
    cases b with
    | infinite t => exact Bool.beq_comm
    | _ => rfl
  | finite s m q =>
    cases b with
    | finite t n r =>
      rw [Bool.eq_iff_iff, same_finite, same_finite]
      grind
    | _ => rfl

theorem Literal.same_comm (v w : Literal) : v.same w = w.same v := by
  cases v <;> cases w <;> first | rfl | exact BEq.comm | exact Binary64.same_comm _ _

theorem Literal.same_trans {v w x : Literal} (h : v.same w = true) (h' : w.same x = true) :
    v.same x = true := by
  cases v <;> cases w <;> cases x <;> simp_all [Literal.same]
  rw [Binary64.same_comm] at h'
  exact Binary64.same_of_same h h'

/-- The names of one list are among those of another, which is as long: so they are the same. -/
theorem exists_field {fs gs : List TyField} (hnodup : (fs.map TyField.name).Nodup)
    (hlength : fs.length = gs.length) (hsub : ∀ f ∈ fs, ∃ e ∈ gs, e.name = f.name) {e : TyField}
    (he : e ∈ gs) : ∃ f ∈ fs, f.name = e.name := by
  have hsubset : fs.map TyField.name ⊆ gs.map TyField.name :=
    fun name hname => by grind
  have hperm := (subperm_of_subset hnodup hsubset).perm_of_length_le (by simp [hlength])
  exact mem_map.1 (hperm.mem_iff.2 (mem_map_of_mem he))

/-- The type is compared exactly: with tidy types both ways alike, and transitively. -/
def Ty.Exact (t : Ty) : Prop := ∀ s, t.same s = true →
  (t.Tidy → s.Tidy → s.same t = true) ∧ ∀ u, s.same u = true → t.same u = true

theorem exact_all {ts us : List Ty} (ih : ∀ m ∈ ts, m.Exact) (h : Ty.sameAll ts us = true) :
    ((∀ m ∈ ts, m.Tidy) → (∀ m ∈ us, m.Tidy) → Ty.sameAll us ts = true) ∧
      ∀ vs, Ty.sameAll us vs = true → Ty.sameAll ts vs = true := by
  simp only [sameAll_iff, forall₂_iff_get] at h ⊢
  obtain ⟨hlength, h⟩ := h
  refine ⟨fun hts hus => ⟨hlength.symm, fun i hi hi' => ?_⟩,
    fun vs hvs => ⟨hlength.trans hvs.1, fun i hi hi' => ?_⟩⟩
  · exact (ih _ (get_mem ts _) _ (h i hi' hi)).1 (hts _ (get_mem ts _)) (hus _ (get_mem us _))
  · have hi'' : i < us.length := hlength ▸ hi
    exact (ih _ (get_mem ts _) _ (h i hi hi'')).2 _ (hvs.2 i hi'' hi')

/-- Of types that are built from a list and compared member by member. -/
theorem exact_listed (build : NodeId → List Ty → Ty)
    (hsame : ∀ {i ms s}, (build i ms).same s = true ↔
      ∃ j ns, s = build j ns ∧ Ty.sameAll ms ns = true)
    (hpart : ∀ {i ms} {m : Ty}, m ∈ ms → m.Part (build i ms)) {i : NodeId} {ms : List Ty}
    (ih : ∀ m ∈ ms, m.Exact) : (build i ms).Exact := by
  intro s h
  obtain ⟨j, ns, rfl, hall⟩ := hsame.1 h
  obtain ⟨hsymm, htrans⟩ := exact_all ih hall
  refine ⟨fun ht hs => hsame.2 ⟨i, ms, rfl, ?_⟩, fun u hu => ?_⟩
  · exact hsymm (fun m hm => ht.part (hpart hm)) fun m hm => hs.part (hpart hm)
  · obtain ⟨k, us, rfl, hall⟩ := hsame.1 hu
    exact hsame.2 ⟨k, us, rfl, htrans us hall⟩

theorem exact_object {i : NodeId} {fs : List TyField} (ih : ∀ f ∈ fs, f.type.Exact) :
    (Ty.object i fs).Exact := by
  intro s h
  cases s with
  | object j gs =>
    rw [Ty.same, Bool.and_eq_true, beq_iff_eq, sameFields_iff] at h
    obtain ⟨hlength, h⟩ := h
    refine ⟨fun hfs hgs => ?_, fun u hu => ?_⟩
    · rw [Ty.same, Bool.and_eq_true, beq_iff_eq, sameFields_iff]
      refine ⟨hlength.symm, fun e he => ?_⟩
      have hmem : ∀ f ∈ fs, ∃ e ∈ gs, e.name = f.name := by
        intro f hf
        obtain ⟨e, he, -⟩ := h f hf
        exact ⟨e, mem_of_find?_eq_some he, findField_name he⟩
      obtain ⟨f, hf, hname⟩ := exists_field (hfs.names (.refl _)) hlength hmem he
      obtain ⟨e', he', hoptional, hsame⟩ := h f hf
      rw [hname, Ty.findField_of_mem (hgs.names (.refl _)) he] at he'
      cases he'
      refine ⟨f, ?_, hoptional.symm, ?_⟩
      · rw [← hname]
        exact Ty.findField_of_mem (hfs.names (.refl _)) hf
      · exact (ih f hf _ hsame).1 (hfs.part (.object hf (.refl _))) (hgs.part (.object he (.refl _)))
    · cases u with
      | object k hs =>
        rw [Ty.same, Bool.and_eq_true, beq_iff_eq, sameFields_iff] at hu ⊢
        refine ⟨hlength.trans hu.1, fun f hf => ?_⟩
        obtain ⟨e, he, hoptional, hsame⟩ := h f hf
        obtain ⟨e', he', hoptional', hsame'⟩ := hu.2 e (mem_of_find?_eq_some he)
        rw [findField_name he] at he'
        exact ⟨e', he', hoptional'.trans hoptional, (ih f hf _ hsame).2 _ hsame'⟩
      | _ => cases hu
  | _ => cases h

mutual

theorem Ty.exact : ∀ t : Ty, t.Exact
  | .primitive i name, s, h => by
    cases s with
    | primitive j name' =>
      obtain rfl : name = name' := by simpa [Ty.same] using h
      exact ⟨fun _ _ => h, fun u hu => by cases u <;> exact hu⟩
    | _ => cases h
  | .literal i v, s, h => by
    cases s with
    | literal j w =>
      refine ⟨fun _ _ => (Literal.same_comm w v).trans h, fun u hu => ?_⟩
      cases u with
      | literal k x => exact Literal.same_trans h hu
      | _ => cases hu
    | _ => cases h
  | .union i ms, s, h =>
    exact_listed .union (by intro i ms s; cases s <;> simp [Ty.same]) (.union · (.refl _))
      (exactAll ms) s h
  | .intersection i ms, s, h =>
    exact_listed .intersection (by intro i ms s; cases s <;> simp [Ty.same])
      (.intersection · (.refl _)) (exactAll ms) s h
  | .tuple i ms, s, h =>
    exact_listed .tuple (by intro i ms s; cases s <;> simp [Ty.same]) (.tuple · (.refl _))
      (exactAll ms) s h
  | .array i e, s, h => by
    cases s with
    | array j e' =>
      obtain ⟨hsymm, htrans⟩ := e.exact e' h
      refine ⟨fun ht hs => hsymm (ht.part (.array (.refl e))) (hs.part (.array (.refl e'))),
        fun u hu => ?_⟩
      cases u with
      | array k e'' => exact htrans e'' hu
      | _ => cases hu
    | _ => cases h
  | .object i fs, s, h => exact_object (exactFields fs) s h
  | .reference i d as bases, s, h => by
    cases s with
    | reference j e bs bases' =>
      rw [Ty.same, Bool.and_eq_true, beq_iff_eq] at h
      refine ⟨fun ht hs => ?_, fun u hu => ?_⟩
      · rw [Ty.same, h.1, ht.args (.refl _), hs.args (.refl _)]
        simp [Ty.sameAll]
      · cases u with
        | reference k d' cs bases'' =>
          rw [Ty.same, Bool.and_eq_true, beq_iff_eq] at hu ⊢
          exact ⟨h.1.trans hu.1, (exact_all (exactAll as) h.2).2 cs hu.2⟩
        | _ => cases hu
    | _ => cases h
  | .deferred .., s, h | .unrepresentable .., s, h => by cases s <;> cases h

theorem Ty.exactAll : ∀ ts : List Ty, ∀ m ∈ ts, m.Exact
  | [] => by simp
  | t :: ts => forall_mem_cons.2 ⟨t.exact, exactAll ts⟩

theorem Ty.exactFields : ∀ fs : List TyField, ∀ f ∈ fs, f.type.Exact
  | [] => by simp
  | .mk _ t _ :: fs => forall_mem_cons.2 ⟨t.exact, exactFields fs⟩

end

/-! ## Values and guards -/

/-- References in the two types to declarations with one number are to one declaration. -/
def Ty.OneDeclaration (t s : Ty) : Prop :=
  ∀ {i d as bases j e bs bases'}, (Ty.reference i d as bases).Part t →
    (Ty.reference j e bs bases').Part s → d.id = e.id → d = e

/-- Tidy types that are the same have the same values, if one name stands for one body. -/
theorem Ty.Tidy.sat_of_same {whole : Ty} (hagree : g.NamesAgree uidOf whole) (ht : t.Tidy)
    (hs : s.Tidy) (hone : Ty.OneDeclaration t s) (hocc : t.Part whole) (hocc' : s.Part whole)
    (h : t.same s = true) {n : Nat} {v : Value} (hv : s.Sat g uidOf n v) : t.Sat g uidOf n v := by
  refine sat_of_same_parts (T := fun u => u.Part t) (S := fun u => u.Part s) ?_ (fun _ hu => hu)
    (fun _ hu => hu) h hv
  intro i j d e as bs bases bases' n v hi hj hid hargs _ hv
  cases hone hi hj hid
  cases ht.args hi
  cases hs.args hj
  rw [Ty.sat_reference] at hv ⊢
  split
  · next hk => rwa [if_pos hk] at hv
  · next hk =>
    rw [if_neg hk] at hv
    rw [hagree ⟨i, d, [], bases, .inl (hi.trans hocc), hk, rfl, rfl⟩
      ⟨j, d, [], bases', .inl (hj.trans hocc'), hk, rfl, rfl⟩]
    exact hv

/-- **Types that are the same can stand for each other.** On types without repeated field names and
type arguments being the same is symmetric and transitive. If two of them are the same, the guards
that are compiled for them, by one compiler among any other requests or by two, accept the same values
at every depth. One name must stand for one body in the two types, and a number for one
declaration. -/
theorem same_types_guards {a b : Ty} (ha : a.Tidy) (hb : b.Tidy) :
    a.same b = b.same a ∧
    (∀ c, a.same b = true → b.same c = true → a.same c = true) ∧
    ∀ {g : Graph} {uidOf : Declaration → String} {ra rb : Guard} {arena arena' : Arena},
      a.same b = true → GuardRequest.Served g uidOf (.type a) (.type ra) arena →
      GuardRequest.Served g uidOf (.type b) (.type rb) arena' →
      g.NamesAgree uidOf (.tuple 0 [a, b]) → Ty.OneDeclaration a b →
      ∀ n v, Guard.checkWithin arena.lookup n ra v = Guard.checkWithin arena'.lookup n rb v := by
  have hcomm : a.same b = b.same a := by
    rw [Bool.eq_iff_iff]
    exact ⟨fun h => (a.exact b h).1 ha hb, fun h => (b.exact a h).1 hb ha⟩
  refine ⟨hcomm, fun c hab hbc => (a.exact b hab).2 c hbc, ?_⟩
  intro g uidOf ra rb arena arena' hsame hserved hserved' hagree hone n v
  obtain ⟨hra, hreads⟩ := hserved.reads
  obtain ⟨hrb, hreads'⟩ := hserved'.reads
  cases hra
  cases hrb
  have hpart : a.Part (.tuple 0 [a, b]) := .tuple mem_cons_self (.refl a)
  have hpart' : b.Part (.tuple 0 [a, b]) := .tuple (by simp) (.refl b)
  rw [Bool.eq_iff_iff, hreads a (mem_singleton_self a), hreads' b (mem_singleton_self b)]
  constructor
  · refine Ty.Tidy.sat_of_same hagree hb ha ?_ hpart' hpart (hcomm ▸ hsame)
    exact fun hi hj hid => (hone hj hi hid.symm).symm
  · exact Ty.Tidy.sat_of_same hagree ha hb hone hpart hpart' hsame

namespace Linked

/-- A list with its length. -/
def counted : Ty :=
  .object 5 [.mk "first" node false, .mk "count" (.primitive 6 "number") false]

/-- The same with the fields in another order. -/
def recounted : Ty :=
  .object 7 [.mk "count" (.primitive 8 "number") false, .mk "first" node false]

theorem reference_counted {id : NodeId} {d : Declaration} {args : List Ty}
    {bases : List Declaration}
    (h : Ty.reference id d args bases ∈ graph.pool (.tuple 0 [counted, recounted])) :
    id = 0 ∧ d = decl ∧ args = [] := by
  simp [Graph.pool, graph, body, counted, recounted, node] at h
  tauto

theorem tidy_counted : (Ty.tuple 0 [counted, recounted]).Tidy where
  names h := by
    have hmem := h.mem_pieces
    simp [counted, recounted, node] at hmem
    obtain ⟨-, rfl⟩ | ⟨-, rfl⟩ := hmem <;> decide
  args h := (reference_counted (Graph.Occurs.mem_pool (.inl h))).2.2

end Linked

theorem same_types_guards_linked :
    Linked.counted.same Linked.recounted = true ∧
    ∃ ra rb c, Yields (GuardRequest.answerAll Linked.graph
        [.type Linked.counted, .type Linked.recounted])
        (Compiler.empty .path) [.type ra, .type rb] c ∧
      ∀ n v, Guard.checkWithin c.arena.lookup n ra v = Guard.checkWithin c.arena.lookup n rb v := by
  have hsame : Linked.counted.same Linked.recounted = true := by decide
  have hrun : Yields (GuardRequest.answerAll Linked.graph
      [.type Linked.counted, .type Linked.recounted]) (Compiler.empty .path)
      [.type (.shape [.mk "first" false (.ref "list@Node"), .mk "count" false (.kind "number")]),
        .type (.shape [.mk "count" false (.kind "number"), .mk "first" false (.ref "list@Node")])]
      Linked.compiled := by
    cbv
  have hagree : Linked.graph.NamesAgree (fun _ => "list@Node")
      (.tuple 0 [Linked.counted, Linked.recounted]) :=
    Graph.namesAgree_of_eq fun h => (Linked.reference_counted h).1
  have hfirst : Linked.counted.Part (.tuple 0 [Linked.counted, Linked.recounted]) :=
    .tuple (by simp) (.refl _)
  have hsecond : Linked.recounted.Part (.tuple 0 [Linked.counted, Linked.recounted]) :=
    .tuple (by simp) (.refl _)
  refine ⟨hsame, _, _, _, hrun, ?_⟩
  refine (same_types_guards (Linked.tidy_counted.part hfirst)
    (Linked.tidy_counted.part hsecond)).2.2 hsame
    ⟨_, _, _, _, _, hrun, Linked.follows, hagree, .head _, rfl⟩
    ⟨_, _, _, _, _, hrun, Linked.follows, hagree, .tail _ (.head _), rfl⟩ hagree ?_
  intro i d as bases j e bs bases' hi hj _
  rw [(Linked.reference_counted (Graph.Occurs.mem_pool (.inl (hi.trans hfirst)))).2.1,
    (Linked.reference_counted (Graph.Occurs.mem_pool (.inl (hj.trans hsecond)))).2.1]

end Componentry
