import Componentry.Proofs.Kinds

/-!
# Classes along the chain of superclasses

Each class extends at most one other, so the classes above it are met one after another. The chain
may come back to a class that was met, the first one or another: then it goes round for ever. The
list of ancestors stops there.

`Program.Walks` says what the walk up the chain has when it stops: each class is the superclass of
the one before, no class comes twice, and the superclass of a class on it is on it too or was met
before. With fewer steps than classes the walk cannot go on, so the bound is never what stops it
(`ancestorsFrom_walks`), and the walk has all classes that can be reached.

An instance type of a class without type parameters is a reference with these ancestors, and for
such references assignability asks for the target among them (`assignable_instances`). Hence it is
reachability along `extends` (`class_assignability`).
-/

namespace Componentry

open List

namespace Program

variable {p : Program} {c k parent : ClassDecl}

/-- The second class is the one that the first extends. -/
def IsSuperclass (p : Program) (c k : ClassDecl) : Prop := p.superclass? c = some k

/-- The second class is above the first on the chain of superclasses. -/
abbrev Above (p : Program) : ClassDecl → ClassDecl → Prop := Relation.TransGen p.IsSuperclass

/-! ## Classes by number -/

theorem mem_classes_of_class? {d : Declaration} (h : p.class? d = some c) :
    c ∈ p.classes ∧ c.decl.id = d.id := by
  obtain ⟨f, hf, hfind⟩ := exists_of_findSome?_eq_some h
  exact ⟨mem_flatMap.2 ⟨f, hf, mem_of_find?_eq_some hfind⟩, by simpa using find?_some hfind⟩

theorem IsSuperclass.mem (h : p.IsSuperclass c k) : k ∈ p.classes := by
  unfold IsSuperclass superclass? at h
  split at h
  · obtain ⟨d, -, hd⟩ := Option.bind_eq_some_iff.1 h
    exact (mem_classes_of_class? hd).1
  · cases h

theorem Numbered.nodup_classes (hp : p.Numbered) : (p.classes.map fun c => c.decl.id).Nodup := by
  refine hp.sublist ?_
  unfold classes
  induction p.files with
  | nil => simp
  | cons f fs ih =>
    rw [flatMap_cons, flatMap_cons, map_append]
    exact f.classNumbers_sublist.append ih

theorem Numbered.class_ext (hp : p.Numbered) (hc : c ∈ p.classes) (hk : k ∈ p.classes)
    (h : c.decl.id = k.decl.id) : c = k :=
  inj_on_of_nodup_map hp.nodup_classes hc hk h

theorem Numbered.class?_decl (hp : p.Numbered) (hc : c ∈ p.classes) : p.class? c.decl = some c := by
  cases h : p.class? c.decl with
  | none =>
    obtain ⟨f, hf, hcf⟩ := mem_flatMap.1 hc
    have hfile := findSome?_eq_none_iff.1 h f hf
    simpa using find?_eq_none.1 hfile c hcf
  | some k =>
    obtain ⟨hk, hid⟩ := mem_classes_of_class? h
    rw [hp.class_ext hk hc hid]

/-! ## The walk up the chain -/

/-- The classes met on the way up from `c`, where the numbers in `seen` were met before. -/
structure Walks (p : Program) (seen : List Nat) (c : ClassDecl) (chain : List ClassDecl) :
    Prop where
  steps : List.IsChain p.IsSuperclass (c :: chain)
  /-- No class comes twice. -/
  nodup : (chain.map fun k => k.decl.id).Nodup
  new : ∀ k ∈ chain, k.decl.id ∉ seen
  /-- The walk stops only where it would come to a class for the second time. -/
  closed : ∀ x ∈ c :: chain, ∀ y, p.IsSuperclass x y → y ∈ chain ∨ y.decl.id ∈ seen

theorem Walks.stop {seen : List Nat}
    (h : ∀ y, p.IsSuperclass c y → y.decl.id ∈ seen) : p.Walks seen c [] where
  steps := .singleton c
  nodup := nodup_nil
  new := by simp
  closed := by
    intro x hx y hy
    rw [mem_singleton.1 hx] at hy
    exact Or.inr (h y hy)

theorem Walks.up (hp : p.Numbered) {seen : List Nat} {chain : List ClassDecl}
    (hparent : p.IsSuperclass c parent) (hnew : parent.decl.id ∉ seen)
    (h : p.Walks (parent.decl.id :: seen) parent chain) : p.Walks seen c (parent :: chain) where
  steps := isChain_cons_cons.2 ⟨hparent, h.steps⟩
  nodup := by
    refine nodup_cons.2 ⟨?_, h.nodup⟩
    intro hmem
    obtain ⟨k, hk, hid⟩ := mem_map.1 hmem
    exact h.new k hk (hid ▸ mem_cons_self)
  new := by
    intro k hk
    obtain rfl | hk := mem_cons.1 hk
    · exact hnew
    · exact fun hseen => h.new k hk (mem_cons_of_mem _ hseen)
  closed := by
    intro x hx y hy
    obtain rfl | hx := mem_cons.1 hx
    · left
      rw [Option.some.inj (hy.symm.trans hparent)]
      exact mem_cons_self
    · obtain hmem | hseen := h.closed x hx y hy
      · exact Or.inl (mem_cons_of_mem _ hmem)
      · obtain hid | hseen := mem_cons.1 hseen
        · left
          rw [hp.class_ext hy.mem hparent.mem hid]
          exact mem_cons_self
        · exact Or.inr hseen

/-- By induction on the bound. The numbers seen are distinct numbers of classes, so there are never
more of them than classes; together with the steps left there are always more. -/
theorem ancestorsFrom_walks (hp : p.Numbered) : ∀ (n : Nat) {seen : List Nat} (c : ClassDecl),
    seen.Nodup → seen ⊆ p.classes.map (fun k => k.decl.id) → p.classes.length < n + seen.length →
      ∃ chain, p.ancestorsFrom n seen c = chain.map (·.decl) ∧ p.Walks seen c chain
  | 0, seen, c, hnodup, hsub, hroom => by
    have hle := (hnodup.subperm hsub).length_le
    rw [length_map] at hle
    omega
  | n + 1, seen, c, hnodup, hsub, hroom => by
    rw [ancestorsFrom]
    cases hparent : p.superclass? c with
    | none =>
      refine ⟨[], rfl, .stop ?_⟩
      intro y hy
      cases hparent.symm.trans hy
    | some parent =>
      have hup : p.IsSuperclass c parent := hparent
      by_cases hseen : parent.decl.id ∈ seen
      · refine ⟨[], by simp [hseen], .stop ?_⟩
        intro y hy
        rwa [Option.some.inj (hy.symm.trans hparent)]
      · have hmem := mem_map_of_mem (f := fun k : ClassDecl => k.decl.id) hup.mem
        obtain ⟨chain, hchain, hwalks⟩ := ancestorsFrom_walks hp n parent
          (nodup_cons.2 ⟨hseen, hnodup⟩) (cons_subset.2 ⟨hmem, hsub⟩)
          (by rw [length_cons]; omega)
        exact ⟨parent :: chain, by simp [hseen, hchain], hwalks.up hp hup hseen⟩

/-- What is reached from a class is on the walk from it. -/
theorem Walks.mem_of_above (hp : p.Numbered) (hc : c ∈ p.classes) {chain : List ClassDecl}
    (h : p.Walks [c.decl.id] c chain) (hk : p.Above c k) : k ∈ c :: chain := by
  have hstep : ∀ x ∈ c :: chain, ∀ y, p.IsSuperclass x y → y ∈ c :: chain := by
    intro x hx y hy
    obtain hmem | hid := h.closed x hx y hy
    · exact mem_cons_of_mem _ hmem
    · rw [hp.class_ext hy.mem hc (mem_singleton.1 hid)]
      exact mem_cons_self
  induction hk with
  | single hy => exact hstep c mem_cons_self _ hy
  | tail _ hy ih => exact hstep _ ih _ hy

theorem ancestors_walks (hp : p.Numbered) (hc : c ∈ p.classes) :
    ∃ chain, p.ancestors c = chain.map (·.decl) ∧ List.IsChain p.IsSuperclass (c :: chain) ∧
      chain.Nodup ∧ ∀ k, k ∈ chain ↔ k ≠ c ∧ p.Above c k := by
  have hid := mem_map_of_mem (f := fun k : ClassDecl => k.decl.id) hc
  obtain ⟨chain, hchain, hwalks⟩ := ancestorsFrom_walks hp p.classes.length c
    (nodup_singleton c.decl.id) (cons_subset.2 ⟨hid, nil_subset _⟩) (by simp)
  refine ⟨chain, hchain, hwalks.steps, hwalks.nodup.of_map, fun k => ⟨fun hk => ⟨?_, ?_⟩, ?_⟩⟩
  · rintro rfl
    exact hwalks.new k hk (mem_singleton_self _)
  · have hpairs := isChain_iff_pairwise.1
      (hwalks.steps.imp fun _ _ => Relation.TransGen.single)
    exact rel_of_pairwise_cons hpairs hk
  · rintro ⟨hne, habove⟩
    exact (mem_cons.1 (hwalks.mem_of_above hp hc habove)).resolve_left hne

/-! ## Instance types -/

/-- The type is that of an instance of the class, resolved at some time. -/
def InstanceType (p : Program) (c : ClassDecl) (t : Ty) : Prop :=
  ∃ r r', Gives (p.typeOfInstance c) r t r'

theorem Kinded.class_kind (hkinds : p.Kinded) (hc : c ∈ p.classes) : c.decl.kind = .classDecl := by
  obtain ⟨f, hf, hcf⟩ := mem_flatMap.1 hc
  exact (hkinds f hf).classes c hcf

/-- Without type parameters nothing has to be resolved for an instance type. -/
theorem gives_typeOfInstance (hp : p.Numbered) (hkinds : p.Kinded) (hc : c ∈ p.classes)
    (hparams : c.typeParams = []) (r : Resolution) :
    ∃ i r', ∀ {t q}, Gives (p.typeOfInstance c) r t q ↔
      t = .reference i c.decl [] (p.ancestors c) ∧ q = r' := by
  obtain ⟨n, hn⟩ : ∃ n, p.resolveBound = n + 1 := ⟨p.resolveBound - 1, by
    unfold resolveBound Resolve.maxDepth
    omega⟩
  refine ⟨r.graph.next, { r with graph := { r.graph with next := r.graph.next + 1 } }, ?_⟩
  intro t q
  have hrun : (p.typeOfInstance c).run r = some (.reference r.graph.next c.decl [] (p.ancestors c),
      { r with graph := { r.graph with next := r.graph.next + 1 } }) := by
    unfold typeOfInstance instantiate
    rw [hn, Resolve.instantiate]
    simp only [hkinds.class_kind hc, hp.class?_decl hc, hparams]
    rfl
  unfold Gives
  rw [hrun]
  simp [eq_comm]

theorem InstanceType.eq_reference (hp : p.Numbered) (hkinds : p.Kinded) (hc : c ∈ p.classes)
    (hparams : c.typeParams = []) {t : Ty} (h : p.InstanceType c t) :
    ∃ i, t = .reference i c.decl [] (p.ancestors c) := by
  obtain ⟨r, r', hgives⟩ := h
  obtain ⟨i, q, hiff⟩ := gives_typeOfInstance hp hkinds hc hparams r
  exact ⟨i, (hiff.1 hgives).1⟩

end Program

/-- References to classes without arguments are compared by their declarations alone. -/
theorem assignable_instances {g : Graph} {d e : Declaration} {i j : NodeId}
    {bases bases' : List Declaration} (hd : d.kind = .classDecl) (he : e.kind = .classDecl) :
    assignable? g (.reference i d [] bases) (.reference j e [] bases') =
      some (inherits e bases' d) := by
  obtain ⟨n, hn⟩ : ∃ n, compareBound g (.reference i d [] bases) (.reference j e [] bases') =
      n + 1 := ⟨_, (Nat.succ_pred_eq_of_pos (Nat.pow_pos (by omega))).symm⟩
  unfold assignable?
  rw [hn]
  by_cases hid : d.id = e.id
  · simp [compareWithin, compareStep, Ty.isTop, Ty.isBottom, Ty.isUnknown, Ty.same, Ty.sameAll,
      hid, inherits]
  · simp [compareWithin, compareStep, Ty.isTop, Ty.isBottom, Ty.isUnknown, Ty.same,
      hid, Ne.symm hid, inherits, Compare.note, targetFits, sourceFits, Graph.unwrap?, partsFit,
      Declaration.isClass, hd, he]

namespace Program

variable {p : Program} {s t : ClassDecl}

/-- The target is among the ancestors of the source, or it is the source itself. -/
theorem inherits_iff (hp : p.Numbered) (hs : s ∈ p.classes) (ht : t ∈ p.classes) :
    inherits s.decl (p.ancestors s) t.decl = true ↔ t = s ∨ p.Above s t := by
  obtain ⟨chain, hchain, hsteps, -, hmem⟩ := ancestors_walks hp hs
  have hclasses : ∀ k ∈ chain, k ∈ p.classes := by
    intro k hk
    obtain ⟨x, -, hx⟩ := Relation.TransGen.tail'_iff.1 ((hmem k).1 hk).2
    exact hx.mem
  have hany : (p.ancestors s).any (·.id == t.decl.id) = true ↔ t ∈ chain := by
    rw [hchain, any_map, any_eq_true]
    constructor
    · rintro ⟨k, hk, hid⟩
      rwa [hp.class_ext ht (hclasses k hk) (eq_of_beq hid).symm]
    · exact fun hk => ⟨t, hk, beq_self_eq_true _⟩
  have hself : (s.decl.id == t.decl.id) = true ↔ t = s := by
    rw [beq_iff_eq]
    exact ⟨fun h => hp.class_ext ht hs h.symm, fun h => by rw [h]⟩
  rw [inherits, Bool.or_eq_true, hself, hany, hmem]
  constructor
  · exact Or.imp_right And.right
  · rintro (h | h)
    · exact Or.inl h
    · by_cases heq : t = s
      · exact Or.inl heq
      · exact Or.inr ⟨heq, h⟩

theorem assignable_iff (hp : p.Numbered) (hkinds : p.Kinded) (hs : s ∈ p.classes)
    (ht : t ∈ p.classes) (hsp : s.typeParams = []) (htp : t.typeParams = []) {source target : Ty}
    (hsource : p.InstanceType s source) (htarget : p.InstanceType t target) (g : Graph) :
    ∃ b, assignable? g target source = some b ∧ (b = true ↔ t = s ∨ p.Above s t) := by
  obtain ⟨i, rfl⟩ := hsource.eq_reference hp hkinds hs hsp
  obtain ⟨j, rfl⟩ := htarget.eq_reference hp hkinds ht htp
  exact ⟨_, assignable_instances (hkinds.class_kind ht) (hkinds.class_kind hs),
    inherits_iff hp hs ht⟩

end Program

/-- The ancestors of a class are the other classes above it, each once, each the superclass of the
one before. A class without type parameters has an instance type, and of two such types the
comparison has an answer: the target is the class of the source or above it. So assignability
between them is reflexive and transitive. -/
theorem class_assignability {p : Program} (hp : p.Numbered) (hkinds : p.Kinded) :
    (∀ c ∈ p.classes, ∃ chain : List ClassDecl, p.ancestors c = chain.map (·.decl) ∧
      List.IsChain p.IsSuperclass (c :: chain) ∧ chain.Nodup ∧
      ∀ k, k ∈ chain ↔ k ≠ c ∧ p.Above c k) ∧
    (∀ c ∈ p.classes, c.typeParams = [] → ∀ r, ∃ t r', Gives (p.typeOfInstance c) r t r') ∧
    (∀ s ∈ p.classes, ∀ t ∈ p.classes, s.typeParams = [] → t.typeParams = [] →
      ∀ source target, p.InstanceType s source → p.InstanceType t target → ∀ g : Graph,
        ∃ b, assignable? g target source = some b ∧ (b = true ↔ t = s ∨ p.Above s t)) ∧
    (∀ c ∈ p.classes, c.typeParams = [] → ∀ t t', p.InstanceType c t → p.InstanceType c t' →
      ∀ g : Graph, assignable g t' t = true) ∧
    (∀ a ∈ p.classes, ∀ b ∈ p.classes, ∀ c ∈ p.classes,
      a.typeParams = [] → b.typeParams = [] → c.typeParams = [] →
      ∀ ta tb tc, p.InstanceType a ta → p.InstanceType b tb → p.InstanceType c tc →
        ∀ g : Graph, assignable g tb ta = true → assignable g tc tb = true →
          assignable g tc ta = true) := by
  have hiff : ∀ s ∈ p.classes, ∀ t ∈ p.classes, s.typeParams = [] → t.typeParams = [] →
      ∀ source target, p.InstanceType s source → p.InstanceType t target → ∀ g : Graph,
        (assignable g target source = true ↔ t = s ∨ p.Above s t) := by
    intro s hs t ht hsp htp source target hsource htarget g
    obtain ⟨b, hb, hiff⟩ := Program.assignable_iff hp hkinds hs ht hsp htp hsource htarget g
    rw [assignable, hb]
    exact hiff
  refine ⟨fun c hc => Program.ancestors_walks hp hc, ?_, ?_, ?_, ?_⟩
  · intro c hc hcp r
    obtain ⟨i, r', hrun⟩ := Program.gives_typeOfInstance hp hkinds hc hcp r
    exact ⟨_, r', hrun.2 ⟨rfl, rfl⟩⟩
  · intro s hs t ht hsp htp source target hsource htarget g
    exact Program.assignable_iff hp hkinds hs ht hsp htp hsource htarget g
  · intro c hc hcp t t' ht ht' g
    exact (hiff c hc c hc hcp hcp t t' ht ht' g).2 (Or.inl rfl)
  · intro a ha b hb c hc hap hbp hcp ta tb tc hta htb htc g hab hbc
    rw [hiff a ha b hb hap hbp ta tb hta htb] at hab
    rw [hiff b hb c hc hbp hcp tb tc htb htc] at hbc
    rw [hiff a ha c hc hap hcp ta tc hta htc]
    obtain rfl | hab := hab
    · exact hbc
    · obtain rfl | hbc := hbc
      · exact Or.inr hab
      · exact Or.inr (hab.trans hbc)

/-! ## A chain that goes round -/

namespace Lasso

/-- A class that extends another one. -/
def extending (id : Nat) (name parent : String) : ClassDecl where
  decl := ⟨id, name, .classDecl, "a.ts", .nowhere⟩
  typeParams := []
  parent := some (.reference .nowhere parent [])
  implemented := []
  decorations := []
  members := []

/-- A class below the ring. -/
def bell : ClassDecl := extending 0 "Bell" "Horn"

/-- The class where the ring is entered. -/
def horn : ClassDecl := extending 1 "Horn" "Siren"

/-- The other class of the ring. -/
def siren : ClassDecl := extending 2 "Siren" "Horn"

/-- The program of the three classes. -/
def program : Program where
  files := [{
    path := "a.ts", external := false, ambient := false, classes := [bell, horn, siren]
    interfaces := [], aliases := [], decorators := [] }]

end Lasso

/-- An instance of the class below the ring is one of both classes of the ring. The walk ends when
it comes to `Horn` again. -/
theorem class_assignability_lasso : Lasso.program.Numbered ∧ Lasso.program.Kinded ∧
    Lasso.program.ancestors Lasso.bell = [Lasso.horn.decl, Lasso.siren.decl] ∧
    ∃ source target r r', Gives (Lasso.program.typeOfInstance Lasso.bell) Resolution.empty source r ∧
      Gives (Lasso.program.typeOfInstance Lasso.siren) r target r' ∧
      assignable? r'.graph target source = some true := by
  have hnumbered : Lasso.program.Numbered := by
    unfold Program.Numbered
    decide
  have hkinded : Lasso.program.Kinded := by
    intro f hf
    rw [mem_singleton.1 hf]
    exact ⟨by decide, by simp, by simp, by simp⟩
  have hbell : Lasso.bell ∈ Lasso.program.classes := .head _
  have hsiren : Lasso.siren ∈ Lasso.program.classes := .tail _ (.tail _ (.head _))
  have habove : Lasso.program.Above Lasso.bell Lasso.siren :=
    .tail (.single (by rfl : Lasso.program.IsSuperclass Lasso.bell Lasso.horn)) (by rfl)
  obtain ⟨-, htypes, hcompare, -⟩ := class_assignability hnumbered hkinded
  obtain ⟨source, r, hsource⟩ := htypes Lasso.bell hbell rfl Resolution.empty
  obtain ⟨target, r', htarget⟩ := htypes Lasso.siren hsiren rfl r
  obtain ⟨b, hb, hiff⟩ := hcompare Lasso.bell hbell Lasso.siren hsiren rfl rfl source target
    ⟨_, _, hsource⟩ ⟨_, _, htarget⟩ r'.graph
  rw [hiff.2 (Or.inr habove)] at hb
  exact ⟨hnumbered, hkinded, by rfl, source, target, r, r', hsource, htarget, hb⟩

end Componentry
