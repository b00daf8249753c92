import Componentry.Proofs.Kinds
import Componentry.Proofs.Types.Applications

/-!
# Resolving ends unless a default leads back to itself

Bodies are entered at most `maxDepth` deep, but the defaults of type parameters are resolved before
anything is looked up or counted. A default that leads back to its own application is never done
(`Program.Circular`): in `interface Box<T = Box>` the application of `Box` to no argument needs
itself.

That is the only way not to end (`typeOf_returns`). Between two levels of instantiation the
applications that are under way form a chain of needs. If none of them is circular they are all
different, and each leaves a parameter without an argument, so there are no more of them than type
parameters in the program (`instantiate_founded`). Conversely a result of an application contains
results of all that it needs, with a smaller bound (`instantiate_ever`).
-/

namespace Componentry

open Relation List Program

variable {d : Declaration}

namespace Program

/-- Defaults or the body of `a` ask for `b`. -/
def Uses (p : Program) (a b : Application) : Prop := p.Needs a b ∨ p.Enters a b

/-- The application leads back to itself through defaults. -/
def Circular (p : Program) (a : Application) : Prop := TransGen p.Needs a a

/-- Nothing that the application leads to is circular. -/
def Founded (p : Program) (a : Application) : Prop :=
  ∀ b, ReflTransGen p.Uses a b → ¬ p.Circular b

/-- The application needs something circular. -/
def Endless (p : Program) (a : Application) : Prop :=
  ∃ b, ReflTransGen p.Needs a b ∧ p.Circular b

variable {p : Program} {a b : Application}

theorem Founded.uses (h : p.Founded a) (hb : p.Uses a b) : p.Founded b :=
  fun c hc => h c (.head hb hc)

theorem Endless.step (h : p.Endless a) : ∃ b, p.Needs a b ∧ p.Endless b := by
  obtain ⟨c, hac, hcircular⟩ := h
  obtain rfl | ⟨b, hab, hbc⟩ := ReflTransGen.cases_head hac
  · obtain ⟨b, hab, hba⟩ := TransGen.head'_iff.1 hcircular
    exact ⟨b, hab, a, hba, hcircular⟩
  · exact ⟨b, hab, c, hbc, hcircular⟩

theorem Asks.declared {scope : Option SourceFile} (hscope : ∀ f ∈ scope, f ∈ p.files)
    {names : List (String × Nat)} (h : p.Asks scope names a) : p.Declared a.decl := by
  obtain ⟨name, -, hd⟩ := h
  exact declared_of_resolve hscope hd

/-! ## Applications that leave a parameter without an argument -/

/-- The declarations of classes, interfaces and aliases, with their type parameters. -/
def generics (p : Program) : List (Declaration × List TypeParam) :=
  p.files.flatMap fun f =>
    f.classes.map (fun c => (c.decl, c.typeParams)) ++
      f.interfaces.map (fun i => (i.decl, i.typeParams)) ++
      f.aliases.map (fun a => (a.decl, a.typeParams))

/-- The applications to fewer arguments than there are type parameters. -/
def partials (p : Program) : List Application :=
  p.generics.flatMap fun g => (List.range g.2.length).map fun k => ⟨g.1, k⟩

theorem length_partials (p : Program) : p.partials.length = p.paramCount := by
  unfold partials generics paramCount
  induction p.files with
  | nil => rfl
  | cons f fs ih =>
    rw [flatMap_cons, flatMap_append, length_append, ih, flatMap_cons, length_append]
    simp [flatMap_append, length_flatMap, Function.comp_def]

/-- What is found by the number of a declaration has that declaration. -/
theorem mem_generics_of_found (hp : p.Numbered) (hd : p.Declared d) {α : Type}
    {items : SourceFile → List α} {decl : α → Declaration} (params : α → List TypeParam)
    (hitems : ∀ f ∈ p.files, ∀ b ∈ items f,
      decl b ∈ f.declarations ∧ (decl b, params b) ∈ p.generics) {b : α}
    (h : p.files.findSome? (fun f => (items f).find? fun a => (decl a).id == d.id) = some b) :
    (d, params b) ∈ p.generics := by
  obtain ⟨f, hf, hfind⟩ := exists_of_findSome?_eq_some h
  obtain ⟨hdecl, hmem⟩ := hitems f hf b (mem_of_find?_eq_some hfind)
  have hid : (decl b).id = d.id := by simpa using find?_some hfind
  rwa [hp.eq_of_id ⟨f, hf, hdecl⟩ hd hid] at hmem

theorem paramsOf_class (hkind : d.kind = .classDecl) {c : ClassDecl} (h : p.class? d = some c) :
    p.paramsOf d = c.typeParams := by
  simp [paramsOf, hkind, h]

theorem paramsOf_mem (hp : p.Numbered) (hd : p.Declared d) (h : p.paramsOf d ≠ []) :
    (d, p.paramsOf d) ∈ p.generics := by
  cases hkind : d.kind with
  | classDecl =>
    cases hc : p.class? d with
    | none => simp [paramsOf, hkind, hc] at h
    | some c =>
      rw [paramsOf_class hkind hc]
      refine mem_generics_of_found hp hd (·.typeParams) (fun f hf b hb => ?_) hc
      exact ⟨by grind [SourceFile.declarations], mem_flatMap.2 ⟨f, hf, by grind⟩⟩
  | interfaceDecl =>
    cases hi : p.interface? d with
    | none => simp [paramsOf, hkind, hi] at h
    | some i =>
      rw [paramsOf_interface hkind hi]
      refine mem_generics_of_found hp hd (·.typeParams) (fun f hf b hb => ?_) hi
      exact ⟨by grind [SourceFile.declarations], mem_flatMap.2 ⟨f, hf, by grind⟩⟩
  | aliasDecl =>
    cases ha : p.alias? d with
    | none => simp [paramsOf, hkind, ha] at h
    | some a =>
      rw [paramsOf_alias hkind ha]
      refine mem_generics_of_found hp hd (·.typeParams) (fun f hf b hb => ?_) ha
      exact ⟨by grind [SourceFile.declarations], mem_flatMap.2 ⟨f, hf, by grind⟩⟩
  | decorator => simp [paramsOf, hkind] at h

theorem defaultApplications_of_le : ∀ (params : List TypeParam) {k : Nat} {bound : List String},
    params.length ≤ k → defaultApplications bound params k = []
  | [], _, _, _ => by simp [defaultApplications]
  | param :: params, 0, _, h => absurd h (Nat.not_succ_le_zero _)
  | param :: params, k + 1, _, h => by
    rw [defaultApplications]
    exact defaultApplications_of_le params (Nat.le_of_succ_le_succ h)

/-- An application that needs something leaves a parameter without an argument. -/
theorem Needs.mem_partials (hp : p.Numbered) (hd : p.Declared a.decl) (h : p.Needs a b) :
    a ∈ p.partials := by
  have hless : a.args < (p.paramsOf a.decl).length := by
    by_contra hge
    unfold Needs at h
    rw [defaultApplications_of_le _ (Nat.le_of_not_lt hge)] at h
    exact not_asks_nil h
  have hne : p.paramsOf a.decl ≠ [] := ne_nil_of_length_pos (Nat.zero_lt_of_lt hless)
  refine mem_flatMap.2 ⟨_, paramsOf_mem hp hd hne, ?_⟩
  exact mem_map.2 ⟨a.args, mem_range.2 hless, rfl⟩

end Program

/-! ## One level of instantiation -/

namespace Resolve

variable {p : Program} {deep : Declaration → Resolve Ty} {n depth : Nat} {a b : Application}

theorem bindParams_needs (p : Program) (inst : Instantiate) {args : List Ty}
    (hargs : args.length = a.args) :
    Consults p inst (p.fileOf? a.decl) (defaultApplications [] (p.paramsOf a.decl) a.args)
      (bindParams p inst (p.fileOf? a.decl) [] (p.paramsOf a.decl) args) := by
  rw [← hargs]
  exact consults_law.bindParams _ args binds_nil

theorem shared_returns {inst : Instantiate} {params : List TypeParam} {args : List Ty}
    {body : Env → Resolve Ty} (hbind : Returns (bindParams p inst (p.fileOf? d) [] params args))
    (hdeep : Returns (deep d))
    (hbody : depth < maxDepth → ∀ {r env r'},
      Gives (bindParams p inst (p.fileOf? d) [] params args) r env r' → Returns (body env)) :
    Returns (shared p inst deep depth d params args body) := by
  have hmodify : ∀ f : Resolution → Resolution, Returns (modify f : Resolve PUnit) :=
    fun f r => ⟨⟨⟩, f r, gives_modify.2 rfl⟩
  unfold shared
  refine hbind.bind fun {r env r'} henv => ?_
  refine .bind (fun r => ⟨r, r, gives_get.2 ⟨rfl, rfl⟩⟩) fun {_ r₁ _} _ => ?_
  -- a body that is under way or done is shared, so only the first one is entered
  cases r₁.find? (sharedKey d (boundArgs env params)) with
  | some t => exact returns_pure t
  | none =>
    dsimp only
    split
    · exact hdeep
    · next hdepth =>
        refine returns_fresh.bind fun _ => (hmodify _).bind fun _ => ?_
        refine (hbody (Nat.lt_of_not_le hdepth) henv).bind fun _ => ?_
        exact (hmodify _).bind fun _ => returns_pure _

/-- An application returns if what it needs returns, and what it enters, unless that is nested too
deep. -/
theorem instantiate_always (hp : p.Numbered) (hkinds : p.Kinded) (hdeep : ∀ d, Returns (deep d))
    (hd : p.Declared a.decl)
    (hneeds : ∀ b, p.Needs a b → Instantiate.Always (instantiate p deep n depth) b)
    (henters : depth < maxDepth → ∀ b, p.Enters a b →
      Instantiate.Always (instantiate p deep n (depth + 1)) b) :
    Instantiate.Always (instantiate p deep (n + 1) depth) a := by
  intro args hargs
  have hreturns := (bindParams_needs p (instantiate p deep n depth) hargs).returns hneeds
  obtain ⟨hclass, hinterface, halias⟩ := hkinds.found hd
  unfold Program.Enters bodyApplications at henters
  unfold instantiate
  cases hkind : a.decl.kind with
  | classDecl =>
    obtain ⟨c, hc⟩ := hclass hkind
    rw [paramsOf_class hkind hc] at hreturns
    dsimp only
    rw [hc]
    exact hreturns.bind fun _ => returns_node _
  | interfaceDecl =>
    obtain ⟨i, hi⟩ := hinterface hkind
    have hparams := paramsOf_interface hkind hi
    have hdecl := decl_of_interface hp hd hi
    rw [hparams] at hreturns
    simp only [hkind, hi, hparams] at henters
    dsimp only
    rw [hi]
    refine shared_returns hreturns (hdeep _) fun hdepth {_ _ _} henv => ?_
    have hbinds := binds_bindParams i.typeParams args binds_nil henv
    rw [append_nil] at hbinds
    refine (consults_law.interfaceBody hbinds).returns ?_
    rw [hdecl]
    exact henters hdepth
  | aliasDecl =>
    obtain ⟨e, he⟩ := halias hkind
    have hparams := paramsOf_alias hkind he
    rw [hparams] at hreturns
    simp only [hkind, he, hparams, Option.map_some, Option.getD_some] at henters
    dsimp only
    rw [he]
    refine shared_returns hreturns (hdeep _) fun hdepth {_ _ _} henv => ?_
    have hbinds := binds_bindParams e.typeParams args binds_nil henv
    rw [append_nil] at hbinds
    exact (type_consults hbinds e.type).returns (henters hdepth)
  | decorator => exact returns_node _

/-- If an application has had a result, so has everything that it needs, with a smaller bound. -/
theorem instantiate_ever (hneeds : p.Needs a b)
    (h : Instantiate.Ever (instantiate p deep (n + 1) depth) a) :
    Instantiate.Ever (instantiate p deep n depth) b := by
  obtain ⟨args, r, t, r', hargs, h⟩ := h
  have hbind := bindParams_needs p (instantiate p deep n depth) hargs
  unfold instantiate at h
  cases hkind : a.decl.kind with
  | classDecl =>
    rw [hkind] at h
    dsimp only at h
    cases hc : p.class? a.decl with
    | none =>
      rw [hc] at h
      exact absurd h not_gives_failure
    | some c =>
      rw [hc] at h
      obtain ⟨env, r₁, henv, -⟩ := gives_bind.1 h
      rw [← paramsOf_class hkind hc] at henv
      exact hbind.asked henv b hneeds
  | interfaceDecl =>
    rw [hkind] at h
    dsimp only at h
    cases hi : p.interface? a.decl with
    | none =>
      rw [hi] at h
      exact absurd h not_gives_failure
    | some i =>
      rw [hi] at h
      obtain ⟨env, r₁, henv, -⟩ := shares_of_gives h
      rw [← paramsOf_interface hkind hi] at henv
      exact hbind.asked henv b hneeds
  | aliasDecl =>
    rw [hkind] at h
    dsimp only at h
    cases he : p.alias? a.decl with
    | none =>
      rw [he] at h
      exact absurd h not_gives_failure
    | some e =>
      rw [he] at h
      obtain ⟨env, r₁, henv, -⟩ := shares_of_gives h
      rw [← paramsOf_alias hkind he] at henv
      exact hbind.asked henv b hneeds
  | decorator =>
    have hparams : p.paramsOf a.decl = [] := by simp [paramsOf, hkind]
    unfold Program.Needs at hneeds
    rw [hparams, defaultApplications] at hneeds
    exact absurd hneeds not_asks_nil

/-! ## All levels -/

/-- An application that needs something circular has no result, whatever the bound. -/
theorem not_ever_of_endless : ∀ (n : Nat) {a : Application}, p.Endless a →
    ¬ Instantiate.Ever (instantiate p deep n depth) a
  | 0, a, _, h => by
    obtain ⟨args, r, t, r', -, h⟩ := h
    exact not_gives_failure h
  | n + 1, a, ha, h => by
    obtain ⟨b, hb, hend⟩ := ha.step
    exact not_ever_of_endless n hend (instantiate_ever hb h)

/-- An application that leads to nothing circular has a result. The list `U` holds the applications
under way at this depth: each of them needs `a`, so `a` is none of them. The bound covers the
deeper levels, with a full chain of needs each, and the rest of the chain at this one. -/
theorem instantiate_founded (hp : p.Numbered) (hkinds : p.Kinded) : ∀ (n depth : Nat)
    (U : List Application) {a : Application}, p.Declared a.decl → p.Founded a → U.Nodup →
    (∀ u ∈ U, u ∈ p.partials ∧ TransGen p.Needs u a) → depth ≤ maxDepth →
    (maxDepth - depth) * (p.paramCount + 1) + (p.paramCount - U.length) < n →
      Instantiate.Always (instantiate p tooDeep n depth) a
  | 0, depth, U, a, _, _, _, _, _, hn => absurd hn (Nat.not_lt_zero _)
  | n + 1, depth, U, a, hd, ha, hnodup, hU, hdepth, hn => by
    refine instantiate_always hp hkinds (fun _ => returns_node _) hd ?_ ?_
    · -- a need makes the chain longer; it cannot be longer than the list of all candidates
      intro b hb
      have hnew : a ∉ U := fun hmem => ha a .refl (hU a hmem).2
      have hpartial := hb.mem_partials hp hd
      have hnodup' : (a :: U).Nodup := nodup_cons.2 ⟨hnew, hnodup⟩
      have hlength : U.length + 1 ≤ p.paramCount := by
        rw [← p.length_partials]
        refine (subperm_of_subset hnodup' ?_).length_le
        exact cons_subset.2 ⟨hpartial, fun u hu => (hU u hu).1⟩
      refine instantiate_founded hp hkinds n depth (a :: U) (hb.declared fileOf_mem)
        (ha.uses (.inl hb)) hnodup' ?_ hdepth (by rw [length_cons]; omega)
      refine forall_mem_cons.2 ⟨⟨hpartial, .single hb⟩, fun u hu => ?_⟩
      exact ⟨(hU u hu).1, (hU u hu).2.tail hb⟩
    · -- a body starts a new chain, one level deeper
      intro hless b hb
      refine instantiate_founded hp hkinds n (depth + 1) [] (hb.declared fileOf_mem)
        (ha.uses (.inr hb)) nodup_nil (by simp) hless ?_
      have hlevel : maxDepth - depth = (maxDepth - (depth + 1)) + 1 := by omega
      rw [hlevel, Nat.succ_mul] at hn
      rw [length_nil]
      omega

theorem instantiate_le_refines (p : Program) (deep : Declaration → Resolve Ty) {n' : Nat}
    (h : n ≤ n') (depth : Nat) (d : Declaration) (args : List Ty) :
    Refines (instantiate p deep n depth d args) (instantiate p deep n' depth d args) := by
  induction h with
  | refl => exact .refl _
  | step _ ih =>
    intro r t r' ht
    exact instantiate_succ_refines p deep _ depth d args r t r' (ih r t r' ht)

end Resolve

/-! ## Annotations -/

/-- The type of an annotation, with at most `n` instantiations inside one another. -/
def Program.typeWithin (p : Program) (n : Nat) (scope : Option SourceFile) (env : Env)
    (t : TypeExpr) : Resolve Ty :=
  Resolve.type p (Resolve.instantiate p Resolve.tooDeep n 0) scope env t

theorem exists_default {q : String × Nat} : ∀ {params : List TypeParam} {k : Nat}
    {bound : List String}, q ∈ defaultApplications bound params k →
      ∃ (t : TypeExpr) (names : List String), q ∈ t.applications names
  | param :: params, 0, bound, h => by
    rw [defaultApplications] at h
    obtain h | h := mem_append.1 h
    · cases hdefault : param.default with
      | none => simp [hdefault] at h
      | some t =>
        rw [hdefault] at h
        exact ⟨t, bound, h⟩
    · exact exists_default h
  | param :: params, k + 1, bound, h => by
    rw [defaultApplications] at h
    exact exists_default h
  | [], k, bound, h => by
    rw [defaultApplications] at h
    cases h

section Annotations

variable {p : Program} {scope : Option SourceFile} {env : Env} {t : TypeExpr}

/-- An annotation that asks for something endless has no type, whatever the bound. -/
theorem not_gives_of_endless {a : Application}
    (ha : p.Asks scope (t.applications (env.map Prod.fst)) a) (hend : p.Endless a) {n : Nat}
    {r r' : Resolution} {u : Ty} : ¬ Gives (p.typeWithin n scope env t) r u r' := by
  intro h
  have hever := (Resolve.type_consults (Resolve.binds_keys env) t).asked h a ha
  exact Resolve.not_ever_of_endless n hend hever

/-- An annotation that asks only for what is founded has a type, and larger bounds do not change
it. -/
theorem gives_of_founded (hp : p.Numbered) (hkinds : p.Kinded) (hscope : ∀ f ∈ scope, f ∈ p.files)
    (h : ∀ a, p.Asks scope (t.applications (env.map Prod.fst)) a → p.Founded a) (r : Resolution) :
    ∃ u r', ∀ n, p.resolveBound ≤ n → Gives (p.typeWithin n scope env t) r u r' := by
  have hbound : (Resolve.maxDepth - 0) * (p.paramCount + 1) + (p.paramCount - 0) <
      p.resolveBound := by
    unfold resolveBound Resolve.maxDepth
    omega
  have halways : ∀ a, p.Asks scope (t.applications (env.map Prod.fst)) a →
      Resolve.Instantiate.Always (Resolve.instantiate p Resolve.tooDeep p.resolveBound 0) a :=
    fun a ha => Resolve.instantiate_founded hp hkinds p.resolveBound 0 [] (ha.declared hscope)
      (h a ha) nodup_nil (by simp) (Nat.zero_le _) hbound
  obtain ⟨u, r', hu⟩ := (Resolve.type_consults (Resolve.binds_keys env) t).returns halways r
  refine ⟨u, r', fun n hn => ?_⟩
  exact congruence_refines.type (Resolve.instantiate_le_refines p _ hn 0) t r u r' hu

end Annotations

/-- **Resolving ends unless a default leads back to itself.** In a loaded program, however its
description is read, an annotation has a type in every file, environment and state, within a bound
that depends on the program only, if nothing circular can be reached from what it asks for. If it
asks for something that needs a circular application, no bound is enough. So all annotations have
types exactly if no application is circular. -/
theorem typeOf_returns {reader : Yaml.Reader} {runtime module name text : String} {p : Program}
    (hload : loadWith reader runtime module name text = .ok p) :
    (∀ (scope : Option SourceFile) (env : Env) (t : TypeExpr), (∀ f ∈ scope, f ∈ p.files) →
      (∀ a, p.Asks scope (t.applications (env.map Prod.fst)) a → p.Founded a) →
      ∀ r, ∃ u r', Gives (p.typeOf scope env t) r u r' ∧
        ∀ n, p.resolveBound ≤ n → Gives (p.typeWithin n scope env t) r u r') ∧
    (∀ (scope : Option SourceFile) (env : Env) (t : TypeExpr) (a : Application),
      p.Asks scope (t.applications (env.map Prod.fst)) a → p.Endless a →
      ∀ n r u r', ¬ Gives (p.typeWithin n scope env t) r u r') ∧
    ((∀ (scope : Option SourceFile) (env : Env) (t : TypeExpr), (∀ f ∈ scope, f ∈ p.files) →
      ∀ r, ∃ u r', Gives (p.typeOf scope env t) r u r') ↔ ∀ a, ¬ p.Circular a) := by
  have hp := loadWith_numbered hload
  have hkinds := loadWith_kinded hload
  have hfounded : ∀ (scope : Option SourceFile) (env : Env) (t : TypeExpr),
      (∀ f ∈ scope, f ∈ p.files) →
      (∀ a, p.Asks scope (t.applications (env.map Prod.fst)) a → p.Founded a) →
      ∀ r, ∃ u r', Gives (p.typeOf scope env t) r u r' ∧
        ∀ n, p.resolveBound ≤ n → Gives (p.typeWithin n scope env t) r u r' := by
    intro scope env t hscope h r
    obtain ⟨u, r', hu⟩ := gives_of_founded hp hkinds hscope h r
    exact ⟨u, r', hu _ (Nat.le_refl _), hu⟩
  refine ⟨hfounded, fun scope env t a ha hend n r u r' => not_gives_of_endless ha hend, ?_, ?_⟩
  · intro hall a hcircular
    -- the application is asked for by a default, which is an annotation
    obtain ⟨b, -, name, hmem, hd⟩ := TransGen.tail'_iff.1 hcircular
    obtain ⟨t, names, ht⟩ := exists_default hmem
    let env : Env := names.map fun name => (name, .literal 0 .null)
    have hkeys : env.map Prod.fst = names := by simp [env, Function.comp_def]
    obtain ⟨u, r', hu⟩ := hall (p.fileOf? b.decl) env t fileOf_mem Resolution.empty
    exact not_gives_of_endless ⟨name, by rw [hkeys]; exact ht, hd⟩ ⟨a, .refl, hcircular⟩ hu
  · intro hnone scope env t hscope r
    obtain ⟨u, r', hu, -⟩ := hfounded scope env t hscope (fun a _ b _ => hnone b) r
    exact ⟨u, r', hu⟩

/-! ## Boxes and bags -/

namespace Packing

/-- A runtime that declares nothing. -/
def runtime : String := "files: [\x7bpath: r.ts\x7d]"

/-- The content of a box is a box unless it is told otherwise; that of a bag is a bag of texts. -/
def text : String :=
  "files: [\x7bpath: a.ts, interfaces: [" ++
  "\x7bname: Box, type_params: ['T = Box'], fields: ['content: T']\x7d, " ++
  "\x7bname: Bag, type_params: ['T = Bag<string>'], fields: ['content: T']\x7d]\x7d]"

def box : Declaration := ⟨0, "Box", .interfaceDecl, "a.ts", ⟨1, 42⟩⟩

def bag : Declaration := ⟨1, "Bag", .interfaceDecl, "a.ts", ⟨1, 105⟩⟩

/-- The annotation that is a name only. -/
def named (name : String) : TypeExpr := .reference .nowhere name []

theorem loaded : ∃ p, loadWith Yaml.parse runtime "" "packing.yaml" text = .ok p ∧
    (p.resolve? none "Box" = some box ∧ p.resolve? (p.fileOf? box) "Box" = some box ∧
      defaultApplications [] (p.paramsOf box) 0 = [("Box", 0)]) ∧
    p.resolve? none "Bag" = some bag ∧ p.resolve? (p.fileOf? bag) "Bag" = some bag ∧
      defaultApplications [] (p.paramsOf bag) 0 = [("Bag", 1)] ∧
      defaultApplications [] (p.paramsOf bag) 1 = [] ∧ p.bodyApplications bag = [] := by
  obtain ⟨p, hload, hfacts⟩ := exists_ok (x := loadWith Yaml.parse runtime "" "packing.yaml" text)
    (p := fun p => decide (
      (p.resolve? none "Box" = some box ∧ p.resolve? (p.fileOf? box) "Box" = some box ∧
        defaultApplications [] (p.paramsOf box) 0 = [("Box", 0)]) ∧
      p.resolve? none "Bag" = some bag ∧ p.resolve? (p.fileOf? bag) "Bag" = some bag ∧
        defaultApplications [] (p.paramsOf bag) 0 = [("Bag", 1)] ∧
        defaultApplications [] (p.paramsOf bag) 1 = [] ∧ p.bodyApplications bag = []))
    (by decide +kernel)
  exact ⟨p, hload, of_decide_eq_true hfacts⟩

/-- A bag of unknown content needs a bag of texts, and that needs nothing. -/
theorem founded_bag {p : Program} (hname : p.resolve? (p.fileOf? bag) "Bag" = some bag)
    (hzero : defaultApplications [] (p.paramsOf bag) 0 = [("Bag", 1)])
    (hone : defaultApplications [] (p.paramsOf bag) 1 = []) (hbody : p.bodyApplications bag = []) :
    p.Founded ⟨bag, 0⟩ := by
  have henters : ∀ {k b}, ¬ p.Enters ⟨bag, k⟩ b := by
    intro k b h
    unfold Program.Enters at h
    rw [hbody] at h
    exact not_asks_nil h
  have hneeds : ∀ {b}, p.Needs ⟨bag, 0⟩ b → b = ⟨bag, 1⟩ := by
    rintro ⟨d, k⟩ ⟨name, hmem, hd⟩
    rw [hzero] at hmem
    obtain ⟨rfl, rfl⟩ := Prod.mk.inj (mem_singleton.1 hmem)
    obtain rfl : bag = d := Option.some.inj (hname.symm.trans hd)
    rfl
  have hlast : ∀ {b}, ¬ p.Needs ⟨bag, 1⟩ b := by
    intro b h
    unfold Program.Needs at h
    rw [hone] at h
    exact not_asks_nil h
  intro b hb
  have hreach : b = ⟨bag, 0⟩ ∨ b = ⟨bag, 1⟩ := by
    induction hb with
    | refl => exact .inl rfl
    | tail _ hstep ih =>
      obtain rfl | rfl := ih
      · exact hstep.elim (fun h => .inr (hneeds h)) fun h => absurd h henters
      · exact hstep.elim (fun h => absurd h hlast) fun h => absurd h henters
  intro hcircular
  obtain ⟨c, hbc, hcb⟩ := TransGen.head'_iff.1 hcircular
  obtain rfl | rfl := hreach
  · -- from the bag of texts there is no way back
    obtain rfl := hneeds hbc
    obtain heq | ⟨d, hd, -⟩ := ReflTransGen.cases_head hcb
    · cases heq
    · exact hlast hd
  · exact hlast hbc

end Packing

/-- A bag has a type, in a program in which a box has none. -/
theorem typeOf_returns_bag :
    ∃ p, loadWith Yaml.parse Packing.runtime "" "packing.yaml" Packing.text = .ok p ∧
    p.Founded ⟨Packing.bag, 0⟩ ∧
    ∃ u r', Gives (p.typeOf none [] (Packing.named "Bag")) Resolution.empty u r' := by
  obtain ⟨p, hload, -, hbag, hname, hzero, hone, hbody⟩ := Packing.loaded
  have hfounded := Packing.founded_bag hname hzero hone hbody
  refine ⟨p, hload, hfounded, ?_⟩
  obtain ⟨hreturns, -, -⟩ := typeOf_returns hload
  obtain ⟨u, r', hu, -⟩ := hreturns none [] (Packing.named "Bag") (by simp) (by
    rintro ⟨d, k⟩ ⟨name, hmem, hd⟩
    have hmem : (name, k) ∈ [("Bag", 0)] := hmem
    obtain ⟨rfl, rfl⟩ := Prod.mk.inj (mem_singleton.1 hmem)
    obtain rfl : Packing.bag = d := Option.some.inj (hbag.symm.trans hd)
    exact hfounded) Resolution.empty
  exact ⟨u, r', hu⟩

/-- The default of the content of a box is a box, so a box never has a type. -/
theorem box_never_returns :
    ∃ p, loadWith Yaml.parse Packing.runtime "" "packing.yaml" Packing.text = .ok p ∧
    ∀ n r u r', ¬ Gives (p.typeWithin n none [] (Packing.named "Box")) r u r' := by
  obtain ⟨p, hload, ⟨hbox, hname, hzero⟩, -⟩ := Packing.loaded
  refine ⟨p, hload, fun n r u r' => ?_⟩
  have hneeds : p.Needs ⟨Packing.box, 0⟩ ⟨Packing.box, 0⟩ :=
    ⟨"Box", by rw [hzero]; exact mem_singleton_self _, hname⟩
  have hasks : p.Asks none ((Packing.named "Box").applications []) ⟨Packing.box, 0⟩ :=
    ⟨"Box", by decide, hbox⟩
  exact not_gives_of_endless hasks ⟨_, .refl, .single hneeds⟩

end Componentry
