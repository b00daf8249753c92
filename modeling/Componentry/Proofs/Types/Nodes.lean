import Componentry.Proofs.Types.Fields
import Componentry.Proofs.Types.Sharing
import Componentry.Types.Member

/-!
# Numbers of nodes

Resolving gives every node a number of its own: two nodes that occur anywhere in what has been
resolved, or in a type that comes out, are one node if their numbers are equal
(`Labels.Fits.occurs`).

A `Labels` says which node has which number, for the numbers given so far. It fits a state if every
node in the state is where it says (`Labels.Fits`). Each step of resolving extends it, and what the
step returns is labelled in the extension (`Labels.Through`); a new node takes the next number
(`Labels.Through.node`). A reference that is under way is labelled before its body is made, so the body
may contain it.
-/

namespace Componentry

open List Resolve

variable {t : Ty} {r : Resolution}

variable {α β : Type}

/-! ## Labels -/

/-- Nodes by their numbers, below `next`. -/
structure Labels where
  node : NodeId → Ty
  next : NodeId

namespace Labels

/-- The labels agree, and there may be more. -/
structure Extends (w w' : Labels) : Prop where
  next : w.next ≤ w'.next
  node : ∀ i < w.next, w'.node i = w.node i

theorem Extends.refl (w : Labels) : w.Extends w := ⟨le_refl _, fun _ _ => rfl⟩

theorem Extends.trans {w w₁ w₂ : Labels} (h : w.Extends w₁) (h₁ : w₁.Extends w₂) :
    w.Extends w₂ where
  next := h.next.trans h₁.next
  node := by
    intro i hi
    rw [h₁.node i (lt_of_lt_of_le hi h.next), h.node i hi]

/-- Every node of a type stands where the labels say. -/
def Has (w : Labels) (t : Ty) : Prop := ∀ u : Ty, u.Part t → u.id < w.next ∧ w.node u.id = u

theorem Has.extends {w w' : Labels} (ht : w.Has t) (h : w.Extends w') : w'.Has t := by
  intro u hu
  obtain ⟨hid, hnode⟩ := ht u hu
  exact ⟨lt_of_lt_of_le hid h.next, by rw [h.node _ hid, hnode]⟩

/-- The labels of a state. -/
structure Fits (w : Labels) (r : Resolution) : Prop where
  next : r.graph.next = w.next
  targets : ∀ e ∈ r.graph.targets, w.Has e.2
  shared : ∀ e ∈ r.shared, w.Has e.2

/-- All types of an environment are labelled. -/
def HasEnv (w : Labels) (env : Env) : Prop := ∀ e ∈ env, w.Has e.2

theorem hasEnv_nil (w : Labels) : w.HasEnv [] := by
  simp [HasEnv]

/-- All types are labelled. -/
def HasAll (w : Labels) (ts : List Ty) : Prop := ∀ t ∈ ts, w.Has t

/-- The types of all fields are labelled. -/
def HasFields (w : Labels) (fs : List TyField) : Prop := ∀ f ∈ fs, w.Has f.type

theorem HasEnv.extends {w w' : Labels} {env : Env} (henv : w.HasEnv env) (h : w.Extends w') :
    w'.HasEnv env := fun e he => (henv e he).extends h

theorem HasFields.extends {w w' : Labels} {fs : List TyField} (hfs : w.HasFields fs)
    (h : w.Extends w') : w'.HasFields fs := fun f hf => (hfs f hf).extends h

/-- One more node. -/
def add (w : Labels) (t : Ty) : Labels := ⟨Function.update w.node w.next t, w.next + 1⟩

theorem extends_add (w : Labels) (t : Ty) : w.Extends (w.add t) where
  next := Nat.le_succ _
  node := fun _ hi => Function.update_of_ne (Nat.ne_of_lt hi) _ _

/-- The new node is labelled if its parts are. -/
theorem has_add {w : Labels} (hid : t.id = w.next)
    (hparts : ∀ u : Ty, u.Part t → u = t ∨ ∃ c, w.Has c ∧ u.Part c) : (w.add t).Has t := by
  intro u hu
  obtain rfl | ⟨c, hc, huc⟩ := hparts u hu
  · refine ⟨by rw [hid]; exact Nat.lt_succ_self _, ?_⟩
    show Function.update w.node w.next u u.id = u
    rw [hid, Function.update_self]
  · exact (hc.extends (w.extends_add t)) u huc

end Labels

open Labels

/-! ## Steps that label what they make -/

/-- From a state that the labels fit, the step extends the labels and returns something with `Q`. -/
def Labels.Through (w : Labels) (m : Resolve α) (Q : Labels → α → Prop) : Prop :=
  ∀ (r r' : Resolution) (a : α), w.Fits r → Gives m r a r' →
    ∃ w' : Labels, w.Extends w' ∧ w'.Fits r' ∧ Q w' a

namespace Labels.Through

variable {w : Labels} {Q : Labels → α → Prop}

theorem pure {a : α} (h : Q w a) : w.Through (Pure.pure a) Q := by
  intro r r' b hr hb
  obtain ⟨rfl, rfl⟩ := gives_pure.1 hb
  exact ⟨w, .refl w, hr, h⟩

theorem bind {m : Resolve α} {f : α → Resolve β} {Q' : Labels → β → Prop} (hm : w.Through m Q)
    (hf : ∀ {w₁ : Labels} {a : α}, w.Extends w₁ → Q w₁ a → w₁.Through (f a) Q') :
    w.Through (m >>= f) Q' := by
  intro r r' b hr hb
  obtain ⟨a, r₁, hma, hfa⟩ := gives_bind.1 hb
  obtain ⟨w₁, hext, hr₁, hq⟩ := hm _ _ _ hr hma
  obtain ⟨w₂, hext₁, hr₂, hq'⟩ := hf hext hq _ _ _ hr₁ hfa
  exact ⟨w₂, hext.trans hext₁, hr₂, hq'⟩

theorem failure : w.Through (Alternative.failure : Resolve α) Q :=
  fun _ _ _ _ h => absurd h not_gives_failure

theorem get : w.Through MonadState.get Labels.Fits := by
  intro r r' a hr h
  obtain ⟨rfl, rfl⟩ := gives_get.1 h
  exact ⟨w, .refl w, hr, hr⟩

/-- A new node made of labelled parts. -/
theorem node {f : NodeId → Ty} (hid : ∀ i, (f i).id = i)
    (hparts : ∀ (i : NodeId) (u : Ty), u.Part (f i) → u = f i ∨ ∃ c, w.Has c ∧ u.Part c) :
    w.Through (do return f (← fresh)) Labels.Has := by
  intro r r' t hr ht
  obtain ⟨i, r₁, hfresh, ht⟩ := gives_bind.1 ht
  obtain ⟨rfl, rfl⟩ := gives_pure.1 ht
  cases hfresh
  have hnext : (f r.graph.next).id = w.next := by rw [hid, hr.next]
  have hext := w.extends_add (f r.graph.next)
  refine ⟨w.add (f r.graph.next), hext, ⟨?_, ?_, ?_⟩, has_add hnext (hparts _)⟩
  · show r.graph.next + 1 = w.next + 1
    rw [hr.next]
  · exact fun e he => (hr.targets e he).extends hext
  · exact fun e he => (hr.shared e he).extends hext

/-- A new node without parts. -/
theorem leaf {f : NodeId → Ty} (hid : ∀ i, (f i).id = i)
    (hleaf : ∀ (i : NodeId) (u : Ty), u.Part (f i) → u = f i) :
    w.Through (do return f (← fresh)) Labels.Has :=
  node hid fun i u hu => .inl (hleaf i u hu)

theorem unrepresentable (reason : String) : w.Through (unrepresentable reason) Labels.Has :=
  leaf (fun _ => rfl) fun i u hu => by cases hu; rfl

theorem primitive (name : String) : w.Through (primitive name) Labels.Has :=
  leaf (fun _ => rfl) fun i u hu => by cases hu; rfl

theorem union {ts : List Ty} (h : w.HasAll ts) : w.Through (union ts) Labels.Has := by
  unfold Resolve.union
  split
  · exact .pure (h _ mem_cons_self)
  · refine node (fun _ => rfl) fun i u hu => ?_
    cases hu with
    | refl => exact .inl rfl
    | union hm hu => exact .inr ⟨_, h _ hm, hu⟩

theorem intersection {ts : List Ty} (h : w.HasAll ts) :
    w.Through (intersection ts) Labels.Has := by
  unfold Resolve.intersection
  split
  · exact .pure (h _ mem_cons_self)
  · refine node (fun _ => rfl) fun i u hu => ?_
    cases hu with
    | refl => exact .inl rfl
    | intersection hm hu => exact .inr ⟨_, h _ hm, hu⟩

theorem array (h : w.Has t) : w.Through (do return .array (← fresh) t) Labels.Has := by
  refine node (fun _ => rfl) fun i u hu => ?_
  cases hu with
  | refl => exact .inl rfl
  | array hu => exact .inr ⟨_, h, hu⟩

theorem tuple {ts : List Ty} (h : w.HasAll ts) :
    w.Through (do return .tuple (← fresh) ts) Labels.Has := by
  refine node (fun _ => rfl) fun i u hu => ?_
  cases hu with
  | refl => exact .inl rfl
  | tuple hm hu => exact .inr ⟨_, h _ hm, hu⟩

theorem object {fs : List TyField} (h : w.HasFields fs) :
    w.Through (do return .object (← fresh) fs) Labels.Has := by
  refine node (fun _ => rfl) fun i u hu => ?_
  cases hu with
  | refl => exact .inl rfl
  | object hf hu => exact .inr ⟨_, h _ hf, hu⟩

end Labels.Through

theorem Labels.HasAll.unionMembers {w : Labels} {ts : List Ty} (h : w.HasAll ts) :
    w.HasAll (ts.flatMap unionMembers) := by
  intro t ht
  obtain ⟨u, hu, ht⟩ := mem_flatMap.1 ht
  cases u with
  | union i ms => exact fun x hx => h _ hu x (.union ht hx)
  | _ =>
    rw [mem_singleton.1 ht]
    exact h _ hu

/-! ## Fields of labelled types -/

section Fields

variable {w : Labels} {g : Graph}

theorem Labels.HasFields.putField {fs : List TyField} {f : TyField} (hfs : w.HasFields fs)
    (hf : w.Has f.type) : w.HasFields (putField fs f) := by
  intro f' hf'
  obtain hf' | rfl := mem_putField hf'
  · exact hfs f' hf'
  · exact hf

theorem Labels.HasFields.foldl_putField {new fs : List TyField} (hnew : w.HasFields new)
    (hfs : w.HasFields fs) : w.HasFields (new.foldl Componentry.putField fs) := by
  intro f hf
  obtain hf | hf := mem_foldl mem_putField hf
  · exact hfs f hf
  · exact hnew f hf

theorem fieldsOf_has (hg : ∀ i t, g.target? i = some t → w.Has t) (ht : w.Has t) :
    w.HasFields ((fieldsOf g t).getD []) := by
  intro f hf
  cases h : fieldsOf g t with
  | none =>
    rw [h] at hf
    cases hf
  | some fs =>
    rw [h] at hf
    intro u hu
    obtain hu | ⟨i, body, hbody, hu⟩ := (fieldsOf_occurs h hf).part hu
    · exact ht u hu
    · exact hg i body hbody u hu

end Fields

theorem Labels.Fits.target {w : Labels} (h : w.Fits r) (i : NodeId) (t : Ty)
    (ht : r.graph.target? i = some t) : w.Has t := by
  unfold Graph.target? at ht
  obtain ⟨e, he, rfl⟩ := Option.map_eq_some_iff.1 ht
  exact h.targets e (mem_of_find?_eq_some he)

/-! ## Resolving -/

/-- A type that may be missing is labelled if it is there. -/
def Labels.HasOption (w : Labels) (found : Option Ty) : Prop := ∀ t, found = some t → w.Has t

namespace Resolve

/-- Declared types come out labelled. -/
def LabelsOut (inst : Instantiate) : Prop :=
  ∀ (w : Labels) (d : Declaration) (args : List Ty), w.HasAll args →
    w.Through (inst d args) Labels.Has

section

variable {p : Program} {inst : Instantiate} {scope : Option SourceFile} {w : Labels} {env : Env}

theorem reference_labels (hinst : LabelsOut inst) (name : String) {args : List Ty}
    (h : w.HasAll args) : w.Through (reference p inst scope name args) Labels.Has := by
  unfold reference
  split
  · exact hinst _ _ _ h
  · split
    · exact .array (h _ mem_cons_self)
    · exact .unrepresentable _
  · exact .unrepresentable _

theorem has_of_lookup {name : String} : ∀ {env : Env}, w.HasEnv env →
    env.lookup name = some t → w.Has t
  | (key, u) :: env, henv, h => by
    rw [lookup_cons] at h
    split at h
    · cases h
      exact henv _ mem_cons_self
    · exact has_of_lookup (fun e he => henv e (mem_cons_of_mem _ he)) h

theorem localName?_labels (h : w.HasEnv env) (name : String) :
    w.Through (localName? env name) Labels.HasOption := by
  unfold localName?
  cases henv : env.lookup name with
  | some t =>
    refine .pure fun u hu => ?_
    cases hu
    exact has_of_lookup h henv
  | none =>
    dsimp only
    split
    · refine .bind (.primitive name) fun _ ht => .pure fun u hu => ?_
      cases hu
      exact ht
    · exact .pure fun u hu => by cases hu

mutual

theorem type_labels (hinst : LabelsOut inst) {w : Labels} {env : Env} (h : w.HasEnv env) :
    ∀ t : TypeExpr, w.Through (type p inst scope env t) Labels.Has
  | .reference l name [] => by
    rw [type]
    refine .bind (localName?_labels h name) fun {w₁ found} _ hfound => ?_
    cases found with
    | some t => exact .pure (hfound t rfl)
    | none => exact reference_labels hinst name (by simp [HasAll])
  | .reference l name (a :: as) => by
    rw [type]
    exact .bind (types_labels hinst h (a :: as)) fun _ hargs => reference_labels hinst name hargs
  | .literal l v => by
    rw [type]
    exact .leaf (fun _ => rfl) fun i u hu => by cases hu; rfl
  | .union l ms => by
    rw [type]
    exact .bind (types_labels hinst h ms) fun _ hts => .union hts.unionMembers
  | .intersection l ms => by
    rw [type]
    exact .bind (types_labels hinst h ms) fun _ hts => .intersection hts
  | .array l e => by
    rw [type]
    exact .bind (type_labels hinst h e) fun _ ht => .array ht
  | .tuple l es => by
    rw [type]
    exact .bind (types_labels hinst h es) fun _ hts => .tuple hts
  | .object l ps => by
    rw [type]
    exact .bind (properties_labels hinst h ps) fun _ hfs => .object hfs
  | .query l e => by
    rw [type]
    exact .leaf (fun _ => rfl) fun i u hu => by cases hu; rfl
  | .function l ps r | .conditional l a b c d => by
    rw [type]
    exact .unrepresentable _

theorem types_labels (hinst : LabelsOut inst) {w : Labels} {env : Env} (h : w.HasEnv env) :
    ∀ ts : List TypeExpr, w.Through (types p inst scope env ts) Labels.HasAll
  | [] => by
    rw [types]
    exact .pure (by simp [HasAll])
  | t :: ts => by
    rw [types]
    refine .bind (type_labels hinst h t) fun hext ht => ?_
    refine .bind (types_labels hinst (h.extends hext) ts) fun hext' hts => .pure ?_
    exact forall_mem_cons.2 ⟨ht.extends hext', hts⟩

theorem properties_labels (hinst : LabelsOut inst) {w : Labels} {env : Env} (h : w.HasEnv env) :
    ∀ ps : List PropertyType, w.Through (properties p inst scope env ps) Labels.HasFields
  | [] => by
    rw [properties]
    exact .pure (by simp [HasFields])
  | .mk name optional t :: ps => by
    rw [properties]
    refine .bind (type_labels hinst h t) fun hext ht => ?_
    refine .bind (properties_labels hinst (h.extends hext) ps) fun hext' hfs => .pure ?_
    exact forall_mem_cons.2 ⟨ht.extends hext', hfs⟩

end

theorem bindParams_labels (hinst : LabelsOut inst) : ∀ (params : List TypeParam) {w : Labels}
    {env : Env} {args : List Ty}, w.HasEnv env → w.HasAll args →
      w.Through (bindParams p inst scope env params args) Labels.HasEnv
  | [], w, env, args, henv, hargs => by
    rw [bindParams]
    exact .pure henv
  | param :: params, w, env, arg :: args, henv, hargs => by
    rw [bindParams]
    obtain ⟨harg, hargs⟩ := forall_mem_cons.1 hargs
    exact bindParams_labels hinst params (forall_mem_cons.2 ⟨harg, henv⟩) hargs
  | param :: params, w, env, [], henv, hargs => by
    rw [bindParams]
    have hrest : ∀ {w₁ : Labels} {t : Ty}, w.Extends w₁ → w₁.Has t →
        w₁.Through (bindParams p inst scope ((param.name, t) :: env) params []) Labels.HasEnv :=
      fun hext ht => bindParams_labels hinst params
        (forall_mem_cons.2 ⟨ht, henv.extends hext⟩) (by simp [HasAll])
    split
    · exact .bind (type_labels hinst henv _) hrest
    · exact .bind (.unrepresentable _) hrest

theorem parentFields_labels (hinst : LabelsOut inst) : ∀ (ts : List TypeExpr) {w : Labels}
    {fs : List TyField}, w.HasEnv env → w.HasFields fs →
      w.Through (parentFields p inst scope env fs ts) Labels.HasFields
  | [], w, fs, henv, hfs => by
    rw [parentFields]
    exact .pure hfs
  | t :: ts, w, fs, henv, hfs => by
    rw [parentFields]
    refine .bind (type_labels hinst henv t) fun hext ht => .bind .get fun hext' hr => ?_
    have hall := hext.trans hext'
    exact parentFields_labels hinst ts (henv.extends hall)
      ((fieldsOf_has hr.target (ht.extends hext')).foldl_putField (hfs.extends hall))

theorem ownFields_labels (hinst : LabelsOut inst) : ∀ (fs : List Field) {w : Labels}
    {fields : List TyField}, w.HasEnv env → w.HasFields fields →
      w.Through (ownFields p inst scope env fields fs) Labels.HasFields
  | [], w, fields, henv, hfields => by
    rw [ownFields]
    exact .pure hfields
  | f :: fs, w, fields, henv, hfields => by
    rw [ownFields]
    have htype : w.Through (type? p inst scope env f.type) Labels.Has := by
      unfold type?
      split
      · exact type_labels hinst henv _
      · exact .unrepresentable _
    exact .bind htype fun hext ht => ownFields_labels hinst fs (henv.extends hext)
      ((hfields.extends hext).putField ht)

theorem interfaceBody_labels (hinst : LabelsOut inst) (henv : w.HasEnv env) (i : InterfaceDecl) :
    w.Through (interfaceBody p inst env i) Labels.Has := by
  unfold interfaceBody
  refine .bind (parentFields_labels hinst i.parents henv (by simp [HasFields])) fun hext hfs => ?_
  exact .bind (ownFields_labels hinst i.fields (henv.extends hext) hfs) fun _ hfs => .object hfs

/-- A reference is labelled before its body is made, and stands for it afterwards. -/
theorem shared_labels (hinst : LabelsOut inst) {deep : Declaration → Resolve Ty}
    (hdeep : ∀ {w : Labels} d, w.Through (deep d) Labels.Has) {depth : Nat} {d : Declaration}
    {params : List TypeParam} {args : List Ty} (hargs : w.HasAll args) {body : Env → Resolve Ty}
    (hbody : ∀ {w : Labels} {env : Env}, w.HasEnv env → w.Through (body env) Labels.Has) :
    w.Through (shared p inst deep depth d params args body) Labels.Has := by
  intro r r' t hr h
  obtain ⟨env, r₁, henv, hshares⟩ := shares_of_gives h
  obtain ⟨w₁, hext₁, hr₁, hw₁⟩ := bindParams_labels hinst params w.hasEnv_nil hargs _ _ _ hr henv
  generalize boundArgs env params = bound at hshares
  cases hshares with
  | found hfound =>
    exact ⟨w₁, hext₁, hr₁, hr₁.shared _ (Resolution.mem_of_find hfound)⟩
  | deep _ _ hgives =>
    obtain ⟨w', hext', hr', ht⟩ := hdeep d _ _ _ hr₁ hgives
    exact ⟨w', hext₁.trans hext', hr', ht⟩
  | made _ htarget =>
    have hext := w₁.extends_add (.reference r₁.graph.next d bound [])
    have href := has_add (w := w₁) (t := .reference r₁.graph.next d bound [])
      hr₁.next fun u hu => .inl (by cases hu; rfl)
    have hopened : (w₁.add (.reference r₁.graph.next d bound [])).Fits
        (Sound.opened r₁ d bound) := by
      refine ⟨?_, fun e he => (hr₁.targets e he).extends hext, ?_⟩
      · show r₁.graph.next + 1 = w₁.next + 1
        rw [hr₁.next]
      · intro e he
        obtain rfl | he := mem_cons.1 he
        · exact href
        · exact (hr₁.shared e he).extends hext
    obtain ⟨w', hext', hr', ht⟩ := hbody (hw₁.extends hext) _ _ _ hopened htarget
    refine ⟨w', hext₁.trans (hext.trans hext'), ⟨hr'.next, ?_, hr'.shared⟩, href.extends hext'⟩
    intro e he
    obtain rfl | he := mem_cons.1 he
    · exact ht
    · exact hr'.targets e he

end

/-- By induction on the bound. -/
theorem instantiate_labels (p : Program) {deep : Declaration → Resolve Ty}
    (hdeep : ∀ {w : Labels} d, w.Through (deep d) Labels.Has) (n depth : Nat) :
    LabelsOut (instantiate p deep n depth) := by
  induction n generalizing depth with
  | zero => exact fun _ _ _ _ => .failure
  | succ n ih =>
    intro w d args hargs
    rw [instantiate]
    dsimp only
    have hhere := ih depth
    have hinside := ih (depth + 1)
    split
    · split
      · next c hc =>
          refine .bind (bindParams_labels hhere c.typeParams w.hasEnv_nil hargs) fun _ _ => ?_
          exact .leaf (fun _ => rfl) fun i u hu => by cases hu; rfl
      · exact .failure
    · split
      · exact shared_labels hhere hdeep hargs fun henv => interfaceBody_labels hinside henv _
      · exact .failure
    · split
      · exact shared_labels hhere hdeep hargs fun henv => type_labels hinside henv _
      · exact .failure
    · exact .unrepresentable _

end Resolve

/-! ## Types of members -/

namespace Program

variable {p : Program} {w : Labels}

theorem instantiate_labelsOut (p : Program) : Resolve.LabelsOut p.instantiate :=
  instantiate_labels p (fun _ => .unrepresentable _) _ _

theorem typeOfField_labels (scope : Option SourceFile) {env : Env} (henv : w.HasEnv env)
    (f : Field) : w.Through (p.typeOfField scope env f) Labels.Has := by
  unfold typeOfField
  split
  · exact type_labels p.instantiate_labelsOut henv _
  · exact .leaf (fun _ => rfl) fun i u hu => by cases hu; rfl
  · exact .leaf (fun _ => rfl) fun i u hu => by cases hu; rfl

/-- By induction on the classes along the chain. -/
theorem propertyFrom_labels (name : String) : ∀ (n : Nat) (seen : List Nat) {w : Labels} {env : Env}
    (c : ClassDecl), w.HasEnv env → w.Through (p.propertyFrom name n seen env c) Labels.HasOption
  | 0, seen, w, env, c, henv => by
    rw [propertyFrom]
    exact .pure fun t ht => by cases ht
  | n + 1, seen, w, env, c, henv => by
    rw [propertyFrom]
    split
    · exact .pure fun t ht => by cases ht
    · dsimp only
      split
      · refine .bind (typeOfField_labels _ henv _) fun _ hu => .pure fun t ht => ?_
        cases ht
        exact hu
      · split
        · exact .pure fun t ht => by cases ht
        · next parent hparent =>
            refine .bind (types_labels p.instantiate_labelsOut henv _) fun _ hargs => ?_
            refine .bind (bindParams_labels p.instantiate_labelsOut parent.typeParams
              (hasEnv_nil _) hargs) fun _ henv' => ?_
            exact propertyFrom_labels name n _ parent henv'

theorem typeOfProperty_labels (c : ClassDecl) (name : String) :
    w.Through (p.typeOfProperty c name) Labels.HasOption := by
  unfold typeOfProperty
  refine .bind (bindParams_labels p.instantiate_labelsOut c.typeParams w.hasEnv_nil
    (by simp [HasAll])) fun _ henv => ?_
  exact propertyFrom_labels name _ _ c henv

theorem unboundEnv_labels : ∀ (params : List TypeParam) {w : Labels},
    w.Through (unboundEnv params) Labels.HasEnv
  | [], w => by
    rw [unboundEnv]
    exact .pure w.hasEnv_nil
  | param :: params, w => by
    rw [unboundEnv]
    refine .bind (.unrepresentable _) fun _ ht => ?_
    refine .bind (unboundEnv_labels params) fun hext henv => .pure fun e he => ?_
    obtain he | he := mem_append.1 he
    · exact henv e he
    · rw [mem_singleton.1 he]
      exact ht.extends hext

theorem typeOfOpenProperty_labels (c : ClassDecl) (name : String) :
    w.Through (p.typeOfOpenProperty c name) Labels.HasOption := by
  unfold typeOfOpenProperty
  exact .bind (unboundEnv_labels c.typeParams) fun _ henv => propertyFrom_labels name _ _ c henv

/-- The states that come about when annotations and properties are asked for, one after another. -/
inductive Resolved (p : Program) : Resolution → Prop where
  | empty : Resolved p Resolution.empty
  | annotation {r r' : Resolution} {scope : Option SourceFile} {t : TypeExpr} {a : Ty}
      (hr : Resolved p r) (h : Gives (p.typeOf scope [] t) r a r') : Resolved p r'
  | property {r r' : Resolution} {c : ClassDecl} {name : String} {a : Option Ty}
      (hr : Resolved p r) (h : Gives (p.typeOfProperty c name) r a r') : Resolved p r'
  | openProperty {r r' : Resolution} {c : ClassDecl} {name : String} {a : Option Ty}
      (hr : Resolved p r) (h : Gives (p.typeOfOpenProperty c name) r a r') : Resolved p r'

theorem Resolved.labels (h : p.Resolved r) : ∃ w : Labels, w.Fits r := by
  induction h with
  | empty => exact ⟨⟨fun _ => default, 0⟩, rfl, by simp [Resolution.empty, Graph.empty],
      by simp [Resolution.empty]⟩
  | annotation _ h ih =>
    obtain ⟨w, hw⟩ := ih
    obtain ⟨w', -, hw', -⟩ :=
      type_labels p.instantiate_labelsOut w.hasEnv_nil _ _ _ _ hw h
    exact ⟨w', hw'⟩
  | property _ h ih =>
    obtain ⟨w, hw⟩ := ih
    obtain ⟨w', -, hw', -⟩ := typeOfProperty_labels _ _ _ _ _ hw h
    exact ⟨w', hw'⟩
  | openProperty _ h ih =>
    obtain ⟨w, hw⟩ := ih
    obtain ⟨w', -, hw', -⟩ := typeOfOpenProperty_labels _ _ _ _ _ hw h
    exact ⟨w', hw'⟩

end Program

/-- Types that occur in labelled types are labelled. -/
theorem Labels.Fits.occurs {w : Labels} (h : w.Fits r) {u : Ty} (ht : w.Has t)
    (hu : r.graph.Occurs t u) : w.node u.id = u := by
  obtain hu | ⟨i, body, hbody, hu⟩ := hu
  · exact (ht u hu).2
  · exact (h.target i body hbody u hu).2

end Componentry
