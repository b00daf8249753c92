import Componentry.Proofs.Outcome

/-!
# Walking through annotations

Resolving an annotation makes new nodes and asks for the declarations that the annotation names.
This module says which names these are (`TypeExpr.freeNames`) and proves, once for all properties,
that resolving keeps what making a node and asking for a named declaration keep. Nothing is known
here of how a declaration is instantiated: that step is a parameter, as it is in `Resolve.type`.

`Walks S m Q` is the form of such a law: from a state with `S` the step `m` leads to a state with
`S`, what is there stays (`Resolution.Grows`), and `Q` holds of the result. Where the names do not
matter, a law of steps is a `Congruence`: it goes through annotations, the bodies of declarations and
instantiation (`Congruence.instantiate`). One such law is that more results inside are more results
(`congruence_refines`).
-/

namespace Componentry

open List Resolve TypeExpr

variable {env : Env} {bound xs ys : List String} {deep deep' : Declaration → Resolve Ty}
  {r : Resolution}

variable {α β : Type}

/-! ## Names -/

mutual

/-- The names that an annotation asks the program for, with the numbers of their arguments, where
`bound` are type parameters. -/
def TypeExpr.applications (bound : List String) : TypeExpr → List (String × Nat)
  | .reference _ name [] =>
    if bound.contains name || primitiveWords.contains name then [] else [(name, 0)]
  | .reference _ name (a :: as) =>
    applicationsAll bound (a :: as) ++ [(name, as.length + 1)]
  | .union _ ts | .intersection _ ts | .tuple _ ts => applicationsAll bound ts
  | .array _ t => t.applications bound
  | .object _ ps => applicationsIn bound ps
  | .literal _ _ | .query _ _ | .function _ _ _ | .conditional _ _ _ _ _ => []

def TypeExpr.applicationsAll (bound : List String) : List TypeExpr → List (String × Nat)
  | [] => []
  | t :: ts => t.applications bound ++ applicationsAll bound ts

def TypeExpr.applicationsIn (bound : List String) : List PropertyType → List (String × Nat)
  | [] => []
  | .mk _ _ t :: ps => t.applications bound ++ applicationsIn bound ps

end

/-- The names that an annotation asks the program for, where `bound` are type parameters. -/
def TypeExpr.freeNames (bound : List String) (t : TypeExpr) : List String :=
  (t.applications bound).map Prod.fst

def TypeExpr.freeNamesAll (bound : List String) (ts : List TypeExpr) : List String :=
  (applicationsAll bound ts).map Prod.fst

theorem TypeExpr.freeNamesAll_cons (bound : List String) (t : TypeExpr) (ts : List TypeExpr) :
    freeNamesAll bound (t :: ts) = t.freeNames bound ++ freeNamesAll bound ts := by
  rw [freeNamesAll, applicationsAll, map_append]
  rfl

/-- The names in the defaults of type parameters; a default sees the parameters before it. -/
def defaultNames : List String → List TypeParam → List String
  | _, [] => []
  | bound, param :: params =>
    ((param.default.map (freeNames bound)).getD []) ++
      defaultNames (param.name :: bound) params

/-- The names in the defaults of the type parameters that have no argument, where the first `k` have
one; a default sees the parameters before it. -/
def defaultApplications : List String → List TypeParam → Nat → List (String × Nat)
  | _, [], _ => []
  | bound, param :: params, k + 1 => defaultApplications (param.name :: bound) params k
  | bound, param :: params, 0 =>
    ((param.default.map (applications bound)).getD []) ++
      defaultApplications (param.name :: bound) params 0

theorem defaultApplications_subset : ∀ (params : List TypeParam) (k : Nat) {bound : List String},
    (defaultApplications bound params k).map Prod.fst ⊆ defaultNames bound params
  | [], _, _ => by simp [defaultApplications]
  | param :: params, k + 1, bound => by
    rw [defaultApplications, defaultNames]
    exact subset_append_of_subset_right _ (defaultApplications_subset params k)
  | param :: params, 0, bound => by
    have hdefault : ((param.default.map (applications bound)).getD []).map Prod.fst =
        (param.default.map (freeNames bound)).getD [] := by
      cases param.default <;> simp [freeNames]
    rw [defaultApplications, defaultNames, map_append, hdefault]
    exact append_subset.2 ⟨subset_append_left _ _,
      subset_append_of_subset_right _ (defaultApplications_subset params 0)⟩

/-- The names in the annotations of fields. -/
def fieldApplications (bound : List String) (fs : List Field) : List (String × Nat) :=
  fs.flatMap fun f => (f.type.map (applications bound)).getD []

/-! ## Growth -/

/-- Whatever is made or known in `r` is so in `r'`. -/
structure Resolution.Grows (r r' : Resolution) : Prop where
  next : r.graph.next ≤ r'.graph.next
  shared : ∀ e ∈ r.shared, e ∈ r'.shared
  target : ∀ i t, r.graph.target? i = some t → r'.graph.target? i = some t

theorem Resolution.Grows.refl (r : Resolution) : r.Grows r :=
  ⟨le_refl _, fun _ h => h, fun _ _ h => h⟩

theorem Resolution.Grows.trans {r₁ r₂ : Resolution} (h₁ : r.Grows r₁) (h₂ : r₁.Grows r₂) :
    r.Grows r₂ where
  next := h₁.next.trans h₂.next
  shared := fun e he => h₂.shared e (h₁.shared e he)
  target := fun i t ht => h₂.target i t (h₁.target i t ht)

/-- The property stays true while the state grows. -/
def Upward (V : Resolution → Prop) : Prop := ∀ r r', Resolution.Grows r r' → V r → V r'

/-- From a state with `S` the step leads to a state with `S` that has grown, and leaves `Q`. -/
def Walks (S : Resolution → Prop) (m : Resolve α) (Q : α → Resolution → Prop) : Prop :=
  ∀ r a r', Gives m r a r' → S r → S r' ∧ r.Grows r' ∧ Q a r'

namespace Walks

variable {S : Resolution → Prop}

theorem pure {a : α} {Q : α → Resolution → Prop} (h : ∀ r, S r → Q a r) :
    Walks S (Pure.pure a) Q := by
  intro r b r' hp hS
  obtain ⟨rfl, rfl⟩ := gives_pure.1 hp
  exact ⟨hS, .refl _, h r hS⟩

theorem bind {m : Resolve α} {f : α → Resolve β} {Q₁ : α → Resolution → Prop}
    {Q₂ : α → β → Resolution → Prop} {Q : β → Resolution → Prop} (hm : Walks S m Q₁)
    (hf : ∀ a, Walks S (f a) (Q₂ a))
    (h : ∀ a b r r', Resolution.Grows r r' → Q₁ a r → Q₂ a b r' → Q b r') :
    Walks S (m >>= f) Q := by
  intro r b r' hb hS
  obtain ⟨a, r₁, hma, hfa⟩ := gives_bind.1 hb
  obtain ⟨hS₁, hg₁, hq₁⟩ := hm _ _ _ hma hS
  obtain ⟨hS₂, hg₂, hq₂⟩ := hf a _ _ _ hfa hS₁
  exact ⟨hS₂, hg₁.trans hg₂, h a b r₁ r' hg₂ hq₁ hq₂⟩

theorem weaken {m : Resolve α} {Q Q' : α → Resolution → Prop} (hm : Walks S m Q)
    (h : ∀ a r, Q a r → Q' a r) : Walks S m Q' := by
  intro r a r' hma hS
  obtain ⟨hS', hg, hq⟩ := hm _ _ _ hma hS
  exact ⟨hS', hg, h a r' hq⟩

theorem done (a : α) : Walks S (Pure.pure a) fun _ _ => True := pure fun _ _ => trivial

/-- A new node for a value. -/
theorem node (hfresh : Walks S fresh fun _ _ => True) (f : NodeId → β) :
    Walks S (do return f (← fresh)) fun _ _ => True :=
  bind hfresh (fun _ => done _) fun _ _ _ _ _ _ _ => trivial

end Walks

/-! ## Annotations -/

namespace Resolve

section

variable {S : Resolution → Prop} {p : Program} {inst : Instantiate} {scope : Option SourceFile}
  {V : Declaration → Resolution → Prop}

/-- Every declaration that a name in the list stands for has been asked for. -/
def Asked (p : Program) (scope : Option SourceFile) (V : Declaration → Resolution → Prop)
    (names : List String) (r : Resolution) : Prop :=
  ∀ name ∈ names, ∀ e, p.resolve? scope name = some e → V e r

/-- Asking for the declarations of the names is a step of the walk. -/
def Answers (S : Resolution → Prop) (p : Program) (inst : Instantiate) (scope : Option SourceFile)
    (V : Declaration → Resolution → Prop) (names : List String) : Prop :=
  ∀ name ∈ names, ∀ e, p.resolve? scope name = some e → ∀ args, Walks S (inst e args) fun _ => V e

theorem asked_upward (hV : ∀ e, Upward (V e)) (names : List String) :
    Upward (Asked p scope V names) := by
  intro r r' hg h name hname e he
  exact hV e r r' hg (h name hname e he)

theorem asked_nil : Asked p scope V [] r := by
  intro name hname
  cases hname

theorem asked_append (hx : Asked p scope V xs r) (hy : Asked p scope V ys r) :
    Asked p scope V (xs ++ ys) r := by
  intro name hname
  obtain hname | hname := mem_append.1 hname
  · exact hx name hname
  · exact hy name hname

theorem Answers.left (h : Answers S p inst scope V (xs ++ ys)) : Answers S p inst scope V xs :=
  fun name hname => h name (mem_append_left _ hname)

theorem Answers.right (h : Answers S p inst scope V (xs ++ ys)) : Answers S p inst scope V ys :=
  fun name hname => h name (mem_append_right _ hname)

/-- The bound names are those that the environment knows. -/
def Binds (env : Env) (bound : List String) : Prop :=
  ∀ name, name ∈ bound ↔ (env.lookup name).isSome = true

theorem Binds.cons (h : Binds env bound) (name : String) (t : Ty) :
    Binds ((name, t) :: env) (name :: bound) := by
  intro other
  rw [lookup_cons, mem_cons]
  by_cases heq : other = name
  · simp [heq]
  · have hbeq : (other == name) = false := beq_eq_false_iff_ne.2 heq
    rw [hbeq]
    simp only [heq, false_or]
    exact h other

/-- Only membership counts. -/
theorem Binds.congr {bound' : List String} (h : Binds env bound)
    (hmem : ∀ name, name ∈ bound' ↔ name ∈ bound) : Binds env bound' := by
  intro name
  rw [hmem name]
  exact h name

theorem binds_nil : Binds [] [] := by
  intro name
  simp

theorem binds_keys : ∀ env : Env, Binds env (env.map Prod.fst)
  | [] => binds_nil
  | (name, t) :: env => (binds_keys env).cons name t

/-- All type parameters are bound. -/
theorem binds_bindParams : ∀ (params : List TypeParam) (args : List Ty) {env env' : Env}
    {bound : List String} {r r' : Resolution}, Binds env bound →
      Gives (bindParams p inst scope env params args) r env' r' →
        Binds env' (params.map (·.name) ++ bound)
  | [], args, env, env', bound, r, r', hbound, h => by
    obtain ⟨rfl, -⟩ := gives_pure.1 h
    exact hbound
  | param :: params, arg :: args, env, env', bound, r, r', hbound, h => by
    refine (binds_bindParams params args (hbound.cons param.name arg) h).congr fun name => ?_
    simp only [map_cons, cons_append, mem_cons, mem_append]
    tauto
  | param :: params, [], env, env', bound, r, r', hbound, h => by
    obtain ⟨t, r₁, h⟩ : ∃ t r₁,
        Gives (bindParams p inst scope ((param.name, t) :: env) params []) r₁ env' r' := by
      unfold bindParams at h
      dsimp only at h
      split at h <;> obtain ⟨t, r₁, -, h⟩ := gives_bind.1 h <;> exact ⟨t, r₁, h⟩
    refine (binds_bindParams params [] (hbound.cons param.name t) h).congr fun name => ?_
    simp only [map_cons, cons_append, mem_cons, mem_append]
    tauto

/-! ## Laws of annotations -/

/-- A law that goes through annotations: `R names m m'` is about two steps that ask for the names, each
with a number of arguments. A name that stands for nothing is not asked for. -/
structure Law (p : Program) (scope : Option SourceFile) (inst inst' : Instantiate)
    (R : List (String × Nat) → ∀ α : Type, Resolve α → Resolve α → Prop) : Prop where
  pure : ∀ {α : Type} (a : α), R [] α (Pure.pure a) (Pure.pure a)
  bind : ∀ {α β : Type} {m m' : Resolve α} {f f' : α → Resolve β} {xs ys : List (String × Nat)},
    R xs α m m' → (∀ {r a r'}, Gives m r a r' → R ys β (f a) (f' a)) →
    R (xs ++ ys) β (m >>= f) (m' >>= f')
  get : R [] Resolution MonadState.get MonadState.get
  fresh : R [] NodeId fresh fresh
  ask : ∀ {name : String} {d : Declaration} (args : List Ty), p.resolve? scope name = some d →
    R [(name, args.length)] Ty (inst d args) (inst' d args)
  unknown : ∀ {name : String} {k : Nat} {m : Resolve Ty}, p.resolve? scope name = none →
    R [] Ty m m → R [(name, k)] Ty m m

theorem length_of_types : ∀ {ts : List TypeExpr} {us : List Ty} {r r' : Resolution},
    Gives (types p inst scope env ts) r us r' → us.length = ts.length
  | [], us, r, r', h => by
    unfold types at h
    obtain ⟨rfl, -⟩ := gives_pure.1 h
    rfl
  | t :: ts, us, r, r', h => by
    unfold types at h
    obtain ⟨_, _, -, h⟩ := gives_bind.1 h
    obtain ⟨rest, _, hrest, h⟩ := gives_bind.1 h
    obtain ⟨rfl, -⟩ := gives_pure.1 h
    exact congrArg (· + 1) (length_of_types hrest)

namespace Law

variable {inst' : Instantiate} {R : List (String × Nat) → ∀ α : Type, Resolve α → Resolve α → Prop}
  (hL : Law p scope inst inst' R)

include hL

/-- A step, and then one that asks for nothing. -/
theorem andThen {m m' : Resolve α} {f f' : α → Resolve β} {names : List (String × Nat)}
    (h : R names α m m') (hf : ∀ a, R [] β (f a) (f' a)) : R names β (m >>= f) (m' >>= f') := by
  rw [← append_nil names]
  exact hL.bind h fun _ => hf _

/-- A new node for a value. -/
theorem node {f : NodeId → α} :
    R [] α (do return f (← Resolve.fresh)) (do return f (← Resolve.fresh)) :=
  hL.andThen hL.fresh fun _ => hL.pure _

theorem union (members : List Ty) : R [] Ty (union members) (union members) := by
  unfold Resolve.union
  split
  · exact hL.pure _
  · exact hL.node

theorem intersection (members : List Ty) :
    R [] Ty (intersection members) (intersection members) := by
  unfold Resolve.intersection
  split
  · exact hL.pure _
  · exact hL.node

theorem reference (name : String) (args : List Ty) : R [(name, args.length)] Ty
    (reference p inst scope name args) (reference p inst' scope name args) := by
  cases hd : p.resolve? scope name with
  | some d =>
    have hsome : ∀ i : Instantiate, Resolve.reference p i scope name args = i d args := by
      intro i
      simp only [Resolve.reference, hd]
    rw [hsome, hsome]
    exact hL.ask args hd
  | none =>
    have hsame : Resolve.reference p inst' scope name args =
        Resolve.reference p inst scope name args := by
      unfold Resolve.reference
      rw [hd]
      match args with
      | [] | [t] | _ :: _ :: _ => rfl
    rw [hsame]
    refine hL.unknown hd ?_
    unfold Resolve.reference
    rw [hd]
    split
    · next he => cases he
    · split
      · exact hL.node
      · exact hL.node
    · exact hL.node

/-- A name without arguments is asked for exactly if it is no bound parameter and not built in. -/
theorem plainName (hbound : Binds env bound) (loc : Location) (name : String) :
    R (applications bound (.reference loc name [])) Ty
      (type p inst scope env (.reference loc name []))
      (type p inst' scope env (.reference loc name [])) := by
  unfold type localName? applications
  cases henv : env.lookup name with
  | some t =>
    have hmem : name ∈ bound := (hbound name).2 (by rw [henv]; rfl)
    rw [if_pos (by simp [hmem])]
    exact hL.pure t
  | none =>
    have hmem : name ∉ bound := by
      intro hmem
      have hsome := (hbound name).1 hmem
      rw [henv] at hsome
      cases hsome
    by_cases hprim : name ∈ primitiveWords
    · have hcond : primitiveWords.contains name = true := by simpa using hprim
      rw [if_pos (by simp [hprim])]
      simp only [hcond, if_true, bind_assoc, pure_bind]
      exact hL.andThen hL.node fun _ => hL.pure _
    · have hcond : primitiveWords.contains name = false := by simpa using hprim
      rw [if_neg (by simp [hmem, hprim])]
      simp only [hcond]
      exact hL.reference name []

mutual

/-- The law goes through annotations. The recursion is that of `Resolve.type`, one case for each
form of annotation. -/
theorem type (hbound : Binds env bound) : ∀ t : TypeExpr,
    R (t.applications bound) Ty (type p inst scope env t) (type p inst' scope env t)
  | .reference loc name [] => hL.plainName hbound loc name
  | .reference loc name (a :: as) => by
    unfold Resolve.type
    rw [applications]
    refine hL.bind (types hbound (a :: as)) fun hargs => ?_
    -- as many arguments are resolved as are written
    rw [← length_cons, ← length_of_types hargs]
    exact hL.reference name _
  | .union loc ts => by
    unfold Resolve.type
    rw [applications]
    exact hL.andThen (types hbound ts) fun members => hL.union _
  | .intersection loc ts => by
    unfold Resolve.type
    rw [applications]
    exact hL.andThen (types hbound ts) fun members => hL.intersection _
  | .array loc t => by
    unfold Resolve.type
    rw [applications]
    exact hL.andThen (type hbound t) fun element => hL.node
  | .tuple loc ts => by
    unfold Resolve.type
    rw [applications]
    exact hL.andThen (types hbound ts) fun elements => hL.node
  | .object loc ps => by
    unfold Resolve.type
    rw [applications]
    exact hL.andThen (properties hbound ps) fun fields => hL.node
  | .literal _ _ | .query _ _ | .function _ _ _ | .conditional _ _ _ _ _ => by
    unfold Resolve.type
    rw [applications]
    exact hL.node

theorem types (hbound : Binds env bound) : ∀ ts : List TypeExpr, R (applicationsAll bound ts)
    _ (types p inst scope env ts) (types p inst' scope env ts)
  | [] => by
    unfold Resolve.types
    rw [applicationsAll]
    exact hL.pure _
  | t :: ts => by
    unfold Resolve.types
    rw [applicationsAll]
    refine hL.bind (type hbound t) fun _ => ?_
    exact hL.andThen (types hbound ts) fun rest => hL.pure _

theorem properties (hbound : Binds env bound) : ∀ ps : List PropertyType,
    R (applicationsIn bound ps) _ (properties p inst scope env ps)
      (properties p inst' scope env ps)
  | [] => by
    unfold Resolve.properties
    rw [applicationsIn]
    exact hL.pure _
  | .mk name optional t :: ps => by
    unfold Resolve.properties
    rw [applicationsIn]
    refine hL.bind (type hbound t) fun _ => ?_
    exact hL.andThen (properties hbound ps) fun rest => hL.pure _

end

theorem bindParams : ∀ (params : List TypeParam) (args : List Ty) {env : Env} {bound : List String},
    Binds env bound → R (defaultApplications bound params args.length) _
      (bindParams p inst scope env params args)
      (bindParams p inst' scope env params args)
  | [], args, env, bound, hbound => by
    unfold Resolve.bindParams defaultApplications
    exact hL.pure _
  | param :: params, arg :: args, env, bound, hbound => by
    unfold Resolve.bindParams
    exact bindParams params args (hbound.cons param.name arg)
  | param :: params, [], env, bound, hbound => by
    unfold Resolve.bindParams
    rw [length_nil, defaultApplications]
    -- whatever the parameter is bound to, later defaults may refer to it
    have hrest := fun t => bindParams params [] (hbound.cons param.name t)
    cases param.default with
    | some t => exact hL.bind (hL.type hbound t) fun _ => hrest _
    | none => exact hL.bind hL.node fun _ => hrest _

theorem parentFields (hbound : Binds env bound) : ∀ (ts : List TypeExpr) {fields : List TyField},
    R (applicationsAll bound ts) _ (parentFields p inst scope env fields ts)
      (parentFields p inst' scope env fields ts)
  | [], fields => by
    unfold Resolve.parentFields
    rw [applicationsAll]
    exact hL.pure _
  | t :: ts, fields => by
    unfold Resolve.parentFields
    rw [applicationsAll]
    refine hL.bind (hL.type hbound t) fun _ => ?_
    exact hL.bind hL.get fun _ => parentFields hbound ts

theorem ownFields (hbound : Binds env bound) : ∀ (fs : List Field) {fields : List TyField},
    R (fieldApplications bound fs) _ (ownFields p inst scope env fields fs)
      (ownFields p inst' scope env fields fs)
  | [], fields => by
    unfold Resolve.ownFields
    exact hL.pure _
  | f :: fs, fields => by
    unfold Resolve.ownFields
    rw [fieldApplications, flatMap_cons, ← fieldApplications]
    refine hL.bind ?_ fun _ => ownFields hbound fs
    cases f.type with
    | some t => exact hL.type hbound t
    | none => exact hL.node

omit hL in
theorem interfaceBody {i : InterfaceDecl} (hL : Law p (p.fileOf? i.decl) inst inst' R)
    (hbound : Binds env bound) :
    R (applicationsAll bound i.parents ++ fieldApplications bound i.fields) _
      (interfaceBody p inst env i) (interfaceBody p inst' env i) := by
  unfold Resolve.interfaceBody
  refine hL.bind (hL.parentFields hbound i.parents) fun _ => ?_
  exact hL.andThen (hL.ownFields hbound i.fields) fun _ => hL.node

end Law

/-- Walking is a law: what is asked for stays asked for. -/
theorem walks_law (hfresh : Walks S fresh fun _ _ => True) (hV : ∀ e, Upward (V e)) :
    Law p scope inst inst fun names _ m _ => Answers S p inst scope V (names.map Prod.fst) →
      Walks S m fun _ => Asked p scope V (names.map Prod.fst) where
  pure a _ := .pure fun _ _ => asked_nil
  bind hm hf hanswers := by
    intro r b r' hb hS
    rw [map_append] at hanswers ⊢
    obtain ⟨a, r₁, hma, hfa⟩ := gives_bind.1 hb
    obtain ⟨hS₁, hg₁, hq₁⟩ := hm hanswers.left _ _ _ hma hS
    obtain ⟨hS₂, hg₂, hq₂⟩ := hf hma hanswers.right _ _ _ hfa hS₁
    exact ⟨hS₂, hg₁.trans hg₂, asked_append (asked_upward hV _ _ _ hg₂ hq₁) hq₂⟩
  get _ := by
    intro r a r' h hS
    obtain ⟨-, rfl⟩ := gives_get.1 h
    exact ⟨hS, .refl _, asked_nil⟩
  fresh _ := hfresh.weaken fun _ _ _ => asked_nil
  ask {name d} args hd hanswers := by
    refine (hanswers name (mem_singleton_self _) d hd args).weaken fun _ r hv => ?_
    intro other hother e he
    obtain rfl := mem_singleton.1 hother
    rw [hd] at he
    cases he
    exact hv
  unknown hd hm _ := by
    refine (hm fun _ hname => nomatch hname).weaken fun _ r _ => ?_
    intro other hother e he
    obtain rfl := mem_singleton.1 hother
    rw [hd] at he
    cases he

/-- Resolving an annotation asks for the declarations it names, and does nothing else but make
nodes. -/
theorem type_walks (hfresh : Walks S fresh fun _ _ => True) (hV : ∀ e, Upward (V e))
    (hbound : Binds env bound) (t : TypeExpr) (h : Answers S p inst scope V (t.freeNames bound)) :
    Walks S (type p inst scope env t) fun _ => Asked p scope V (t.freeNames bound) :=
  (walks_law hfresh hV).type hbound t h

theorem types_walks (hfresh : Walks S fresh fun _ _ => True) (hV : ∀ e, Upward (V e))
    (hbound : Binds env bound) (ts : List TypeExpr)
    (h : Answers S p inst scope V (freeNamesAll bound ts)) :
    Walks S (types p inst scope env ts) fun _ =>
      Asked p scope V (freeNamesAll bound ts) :=
  (walks_law hfresh hV).types hbound ts h

/-! ## Type parameters -/

/-- Binding type parameters asks at most for what the defaults name, and binds all of them. -/
theorem bindParams_walks (hfresh : Walks S fresh fun _ _ => True) (hV : ∀ e, Upward (V e))
    (params : List TypeParam) (args : List Ty) (hbound : Binds env bound)
    (h : Answers S p inst scope V (defaultNames bound params)) :
    Walks S (bindParams p inst scope env params args) fun env' _ =>
      Binds env' (params.map (·.name) ++ bound) := by
  intro r env' r' hgives hS
  have hasked := fun name hname => h name (defaultApplications_subset params args.length hname)
  obtain ⟨hS', hg, -⟩ := (walks_law hfresh hV).bindParams params args hbound hasked _ _ _ hgives hS
  exact ⟨hS', hg, binds_bindParams params args hbound hgives⟩

end

end Resolve

/-! ## Laws of steps -/

namespace Resolve

/-- What is left of sharing a reference when its parameters are bound. -/
def share (deep : Declaration → Resolve Ty) (depth : Nat) (d : Declaration) (bound : List Ty)
    (body : Resolve Ty) : Resolve Ty := do
  let key := sharedKey d bound
  match (← get).find? key with
  | some t => return t
  | none =>
    if depth ≥ maxDepth then deep d
    else
      let id ← fresh
      let ref := Ty.reference id d bound []
      modify fun r => { r with shared := (key, ref) :: r.shared }
      let target ← body
      modify fun r => { r with graph := r.graph.setTarget id target }
      return ref

end Resolve

/-- A relation between steps that holds of two steps if it holds of what they are made of. -/
structure Congruence (R : ∀ α : Type, Resolve α → Resolve α → Prop) : Prop where
  pure : ∀ {α : Type} (a : α), R α (Pure.pure a) (Pure.pure a)
  bind : ∀ {α β : Type} {m m' : Resolve α} {f f' : α → Resolve β}, R α m m' →
    (∀ {r a r'}, Gives m r a r' → R β (f a) (f' a)) → R β (m >>= f) (m' >>= f')
  get : R Resolution MonadState.get MonadState.get
  failure : R Ty Alternative.failure Alternative.failure
  fresh : R NodeId fresh fresh
  share : ∀ {deep deep' : Declaration → Resolve Ty} {depth : Nat} {d : Declaration}
    {bound : List Ty} {body body' : Resolve Ty}, R Ty (deep d) (deep' d) → R Ty body body' →
    R Ty (share deep depth d bound body) (share deep' depth d bound body')

namespace Congruence

variable {R : ∀ α : Type, Resolve α → Resolve α → Prop} (hR : Congruence R) {p : Program}
  {inst inst' : Resolve.Instantiate} {scope : Option SourceFile} {env : Env}

include hR

/-- A new node for a value. -/
theorem node {f : NodeId → α} :
    R α (do return f (← Resolve.fresh)) (do return f (← Resolve.fresh)) :=
  hR.bind hR.fresh fun _ => hR.pure _

section Annotations

variable (h : ∀ d args, R Ty (inst d args) (inst' d args))

include h

theorem law : Resolve.Law p scope inst inst' fun _ α m m' => R α m m' where
  pure := hR.pure
  bind := hR.bind
  get := hR.get
  fresh := hR.fresh
  ask args _ := h _ args
  unknown _ hm := hm

theorem type (t : TypeExpr) :
    R _ (type p inst scope env t) (type p inst' scope env t) :=
  (hR.law h).type (binds_keys env) t

theorem bindParams (params : List TypeParam) (args : List Ty) :
    R _ (bindParams p inst scope env params args)
      (bindParams p inst' scope env params args) :=
  (hR.law h).bindParams params args (binds_keys env)

theorem interfaceBody (i : InterfaceDecl) :
    R _ (interfaceBody p inst env i) (interfaceBody p inst' env i) :=
  (hR.law h).interfaceBody (binds_keys env)

theorem shared {depth : Nat} {d : Declaration} (hdeep : R Ty (deep d) (deep' d))
    {params : List TypeParam} {args : List Ty} {body body' : Env → Resolve Ty}
    (hbody : ∀ env, R Ty (body env) (body' env)) :
    R _ (shared p inst deep depth d params args body)
      (shared p inst' deep' depth d params args body') := by
  unfold Resolve.shared
  exact hR.bind (hR.bindParams h params args) fun _ => hR.share hdeep (hbody _)

end Annotations

variable (h : ∀ d, R Ty (deep d) (deep' d))

include h

theorem instantiate_step {n n' depth : Nat}
    (hhere : ∀ d args, R Ty (instantiate p deep n depth d args)
      (instantiate p deep' n' depth d args))
    (hinside : ∀ d args, R Ty (instantiate p deep n (depth + 1) d args)
      (instantiate p deep' n' (depth + 1) d args)) (d : Declaration) (args : List Ty) :
    R _ (instantiate p deep (n + 1) depth d args)
      (instantiate p deep' (n' + 1) depth d args) := by
  unfold instantiate
  cases d.kind with
  | classDecl =>
    dsimp only
    cases p.class? d with
    | none => exact hR.failure
    | some c => exact hR.bind (hR.bindParams hhere _ _) fun env => hR.node
  | interfaceDecl =>
    dsimp only
    cases p.interface? d with
    | none => exact hR.failure
    | some i => exact hR.shared hhere (h d) fun env => hR.interfaceBody hinside i
  | aliasDecl =>
    dsimp only
    cases p.alias? d with
    | none => exact hR.failure
    | some a => exact hR.shared hhere (h d) fun env => hR.type hinside a.type
  | decorator => exact hR.node

/-- By induction on the bound of the recursion. -/
theorem instantiate : ∀ (n depth : Nat) (d : Declaration) (args : List Ty),
    R _ (instantiate p deep n depth d args) (instantiate p deep' n depth d args)
  | 0, depth, d, args => by
    unfold Resolve.instantiate
    exact hR.failure
  | n + 1, depth, d, args =>
    hR.instantiate_step h (instantiate n depth) (instantiate n (depth + 1)) d args

end Congruence

/-! ## Refinement -/

/-- Whatever the first step gives, the second gives. -/
def Refines (m m' : Resolve α) : Prop := ∀ r a r', Gives m r a r' → Gives m' r a r'

theorem Refines.refl (m : Resolve α) : Refines m m := fun _ _ _ h => h

theorem Refines.bind {m m' : Resolve α} {f f' : α → Resolve β} (hm : Refines m m')
    (hf : ∀ {r a r'}, Gives m r a r' → Refines (f a) (f' a)) :
    Refines (m >>= f) (m' >>= f') := by
  intro r b r' h
  obtain ⟨a, r₁, ha, hb⟩ := gives_bind.1 h
  exact gives_bind.2 ⟨a, r₁, hm _ _ _ ha, hf ha _ _ _ hb⟩

/-- The more is instantiated inside, the more annotations and declarations have results. -/
theorem congruence_refines : Congruence fun _ m m' => Refines m m' where
  pure _ := .refl _
  bind := .bind
  get := .refl _
  failure := .refl _
  fresh := .refl _
  share hdeep hbody := by
    unfold share
    refine .bind (.refl _) fun _ => ?_
    dsimp only
    split
    · exact .refl _
    · split
      · exact hdeep
      · exact .bind (.refl _) fun _ => .bind (.refl _) fun _ => .bind hbody fun _ => .refl _

/-- A result that is reached within the bound is reached within a larger one. -/
theorem Resolve.instantiate_succ_refines (p : Program) (deep : Declaration → Resolve Ty) :
    ∀ (n depth : Nat) (d : Declaration) (args : List Ty),
      Refines (instantiate p deep n depth d args) (instantiate p deep (n + 1) depth d args)
  | 0, depth, d, args => by
    intro r t r' h
    exact absurd h not_gives_failure
  | n + 1, depth, d, args =>
    congruence_refines.instantiate_step (fun _ => .refl _)
      (instantiate_succ_refines p deep n depth) (instantiate_succ_refines p deep n (depth + 1)) d
      args

end Componentry
