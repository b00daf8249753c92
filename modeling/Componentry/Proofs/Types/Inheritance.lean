import Componentry.Proofs.Types.Fields
import Componentry.Proofs.Types.Sharing

/-!
# Inherited fields

An interface has the fields of the interfaces it extends, and its own over them. Its fields are read
off its bases when its body is resolved, and they stay what they were then. So it matters whether a
base stands for something at that moment. It does unless it is under way itself, and that is so only
if resolving the base has led to the interface that extends it.

* `inheriting` is the policy for programs in which no base leads back to an interface that extends
  it: there every interface has all it inherits, whatever was resolved before.
* `losing` is the policy for a base that does lead back: while it is under way, the interface that
  extends it is resolved without it.

Both are put together in `interface_fields`.
-/

namespace Componentry

open List

variable {d e : Declaration} {p : Program} {fs : List TyField} {i : InterfaceDecl} {r : Resolution}
  {Means : Declaration → Resolution → Ty → Prop}

/-! ## Extending -/

namespace Program

/-- The interface declared by `d` extends the one declared by `e`. -/
def Extends (p : Program) (d e : Declaration) : Prop :=
  d.kind = .interfaceDecl ∧ ∃ i, p.interface? d = some i ∧ ∃ t ∈ i.parents, p.BaseRef i t e

/-- The interface, or one that it extends directly or not, declares a field of the name. -/
inductive Declares (p : Program) : Declaration → String → Prop
  | own {d : Declaration} {i : InterfaceDecl} {f : Field} (hk : d.kind = .interfaceDecl)
      (hi : p.interface? d = some i) (hf : f ∈ i.fields) : Declares p d f.name
  | base {d e : Declaration} {x : String} (he : p.Extends d e) (hx : Declares p e x) :
      Declares p d x

/-- Resolving `d` can lead to `e`, through what bodies and defaults name. -/
def Reaches (p : Program) : Declaration → Declaration → Prop :=
  Relation.ReflTransGen fun d e => p.BodyNamed d e ∨ p.DefaultNamed d e

/-- The interface extends the other, directly or not, or is the other. -/
def ExtendsAll (p : Program) : Declaration → Declaration → Prop := Relation.ReflTransGen p.Extends

/-- Among the interface and all it extends, directly or not, none leads back to one that extends
it. -/
def NoWayBack (p : Program) (d : Declaration) : Prop :=
  ∀ a b, p.ExtendsAll d a → p.Extends a b → ¬ p.Reaches b a

/-- The interface and all it extends, directly or not, extend nothing but interfaces. -/
def ExtendsOnlyInterfaces (p : Program) (d : Declaration) : Prop :=
  ∀ e, p.ExtendsAll d e → ∀ i, p.interface? e = some i → ∀ t ∈ i.parents, ∃ b, p.BaseRef i t b

theorem ExtendsOnlyInterfaces.base (h : p.ExtendsOnlyInterfaces d) (he : p.Extends d e) :
    p.ExtendsOnlyInterfaces e :=
  fun b hb => h b (.head he hb)

end Program

/-! ## Fields put over one another -/

/-- A field that is put down is found under its name; other names find what they found. -/
theorem findField_putField (f : TyField) (name : String) (fs : List TyField) :
    findField (putField fs f) name = if f.name = name then some f else findField fs name := by
  unfold findField
  induction fs with
  | nil => by_cases h : f.name = name <;> simp [putField, h]
  | cons g gs ih =>
    rw [putField]
    by_cases hg : g.name = f.name
    · by_cases h : f.name = name <;> simp [hg, h]
    · obtain rfl | hname := eq_or_ne g.name name
      · simp [hg, Ne.symm hg]
      · simp [hg, hname, ih]

/-- A field stays where it is found unless another of its name is put down. -/
theorem findField_foldl_putField {name : String} {g : TyField} {new : List TyField}
    (h : findField fs name = some g) (hnew : ∀ f ∈ new, f.name ≠ name) :
    findField (new.foldl putField fs) name = some g := by
  induction new generalizing fs with
  | nil => exact h
  | cons f new ih =>
    rw [foldl_cons]
    apply ih
    · rw [findField_putField, if_neg (hnew f mem_cons_self)]
      exact h
    · intro f' hf'
      exact hnew f' (mem_cons_of_mem _ hf')

/-- A name that is there, or is put down, is there afterwards. -/
theorem findField_isSome_foldl {name : String} {new : List TyField} :
    (findField (new.foldl putField fs) name).isSome ↔
      (findField fs name).isSome ∨ ∃ f ∈ new, f.name = name := by
  induction new generalizing fs with
  | nil => simp
  | cons f new ih =>
    rw [foldl_cons, ih, findField_putField]
    by_cases hname : f.name = name <;> simp [hname]

theorem exists_of_findField {name : String} (h : (findField fs name).isSome) :
    ∃ g ∈ fs, g.name = name := by
  obtain ⟨g, hg⟩ := Option.isSome_iff_exists.1 h
  exact ⟨g, mem_of_find?_eq_some hg, by simpa using find?_some hg⟩

/-! ## Interfaces that inherit everything -/

/-- The layer holds the fields of the base that the annotation names. -/
def Layer (p : Program) (i : InterfaceDecl) (r : Resolution) (t : TypeExpr)
    (layer : List TyField) : Prop :=
  ∀ e, p.BaseRef i t e → ∃ id args oid, r.Holds id e args ∧
    r.graph.target? id = some (.object oid layer)

/-- The fields are those of all bases, one put over the other, and the interface's own put over
them. -/
def Inherits (p : Program) (i : InterfaceDecl) (r : Resolution) (fs : List TyField) : Prop :=
  ∃ layers own, List.Forall₂ (Layer p i r) i.parents layers ∧
    List.Forall₂ (OwnField p i) i.fields own ∧
    fs = own.foldl putField (layers.flatten.foldl putField [])

theorem inherits_upward : Upward fun r => Inherits p i r fs := by
  intro r r' hg h
  obtain ⟨layers, own, hlayers, hown, rfl⟩ := h
  refine ⟨layers, own, hlayers.imp fun t layer hlayer => ?_, hown, rfl⟩
  intro e he
  obtain ⟨id, args, oid, hr, ht⟩ := hlayer e he
  exact ⟨id, args, oid, hg.holds hr, hg.target _ _ ht⟩

theorem exists_layer {α β : Type} {R : α → β → Prop} {xs : List α} {ys : List β}
    (h : Forall₂ R xs ys) {x : α} (hx : x ∈ xs) : ∃ y ∈ ys, R x y := by
  induction h with
  | nil => cases hx
  | cons hr _ ih =>
    obtain rfl | hx := mem_cons.1 hx
    · exact ⟨_, mem_cons_self, hr⟩
    · obtain ⟨y, hy, hr⟩ := ih hx
      exact ⟨y, mem_cons_of_mem _ hy, hr⟩

/-- What an interface stands for: an object type. The interface `c` and those that it extends inherit
everything, and extending is well founded below them, because bases are finished first. -/
def Complete (p : Program) (c d : Declaration) (r : Resolution) (t : Ty) : Prop :=
  d.kind = .interfaceDecl → ∃ i oid fs, p.interface? d = some i ∧ t = .object oid fs ∧
    (p.ExtendsAll c d → Acc (fun e d => p.Extends d e) d ∧ Inherits p i r fs)

/-- The policy for an interface without a way back: whatever is under way leads to what is asked for,
so a base is never under way when it is read. -/
def inheriting (p : Program) {c : Declaration} (hback : p.NoWayBack c) : Policy p where
  Asks := fun U d => ∀ u ∈ U, p.Reaches u.2 d
  Means := Complete p c
  upward := by
    intro d t r r' hg h hk
    obtain ⟨i, oid, fs, hi, ht, hinherits⟩ := h hk
    refine ⟨i, oid, fs, hi, ht, fun hc => ?_⟩
    exact ⟨(hinherits hc).1, inherits_upward _ _ hg (hinherits hc).2⟩
  object := by
    intro d r t h hk
    obtain ⟨i, oid, fs, -, ht, -⟩ := h hk
    exact ⟨oid, fs, ht⟩
  ofDefault := by
    intro U d e hasks hnamed u hu
    exact (hasks u hu).tail (Or.inr hnamed)
  ofBody := by
    intro U id d e hasks hnamed u hu
    obtain rfl | hu := List.mem_cons.1 hu
    · exact .single (Or.inl hnamed)
    · exact (hasks u hu).tail (Or.inl hnamed)
  ofInterface := by
    intro U id d i r oid fs hasks hk hdecl hi hS hread _ _
    have hreaches : ∀ u ∈ (id, d) :: U, p.Reaches u.2 d := by
      intro u hu
      obtain rfl | hu := List.mem_cons.1 hu
      · exact .refl
      · exact hasks u hu
    obtain ⟨layers, own, hlayers, hown, rfl⟩ := hread
    refine ⟨i, oid, _, hi, rfl, fun hc => ?_⟩
    -- every base stands for something
    have hlayer : ∀ t ∈ i.parents, ∀ layer, LayerRead p ((id, d) :: U) i r t layer →
        Layer p i r t layer := by
      intro t ht layer hlayer e he
      obtain ⟨id', args, hr, ⟨oid, htarget⟩ | ⟨-, hmem⟩⟩ := hlayer e he
      · exact ⟨id', args, oid, hr, htarget⟩
      · exact absurd (hreaches _ hmem) (hback d e hc ⟨hk, i, hi, t, ht, he⟩)
    have hlayers' : List.Forall₂ (Layer p i r) i.parents layers := by
      rw [List.forall₂_iff_zip] at hlayers ⊢
      refine ⟨hlayers.1, ?_⟩
      intro t layer hmem
      exact hlayer t (List.of_mem_zip hmem).1 layer (hlayers.2 hmem)
    refine ⟨Acc.intro d ?_, layers, own, hlayers', hown, rfl⟩
    intro e hextends
    have hce : p.ExtendsAll c e := hc.tail hextends
    obtain ⟨-, j, hj, t, ht, he⟩ := hextends
    obtain rfl : i = j := Option.some.inj (hi.symm.trans hj)
    obtain ⟨layer, -, hl⟩ := exists_layer hlayers' ht
    obtain ⟨id', args, oid', hr, htarget⟩ := hl e he
    obtain ⟨_, _, _, _, _, hke, _⟩ := he
    obtain ⟨_, _, _, -, -, hmeans⟩ := hS.means hr htarget hke
    exact (hmeans hce).1
  ofAlias := fun hk _ hinterface => nomatch hk.symm.trans hinterface

section Inheriting

variable {p : Program} {U U' : UnderWay} {r r' : Resolution} {c d : Declaration}

theorem inherits_of_sound (hS : Sound p (Complete p c) U r) (hc : p.ExtendsAll c d) {id : NodeId}
    {args : List Ty} {oid : NodeId} (hk : d.kind = .interfaceDecl) (hr : r.Holds id d args)
    (ht : r.graph.target? id = some (.object oid fs)) :
    ∃ i, p.interface? d = some i ∧ Inherits p i r fs := by
  obtain ⟨i, oid', fs', hi, heq, hinherits⟩ := hS.means hr ht hk
  cases heq
  exact ⟨i, hi, (hinherits hc).2⟩

/-- Every name that an interface or one of its bases declares is the name of a field, by induction on
where it is declared. -/
theorem findField_of_declares (hS : Sound p (Complete p c) U r) {x : String}
    (hx : p.Declares d x) :
    p.ExtendsAll c d → ∀ {id : NodeId} {args : List Ty} {oid : NodeId} {fs : List TyField},
      r.Holds id d args → r.graph.target? id = some (.object oid fs) → (findField fs x).isSome := by
  induction hx with
  | @own d i f hk hi hf =>
    intro hc id args oid fs hr ht
    obtain ⟨j, hj, layers, own, -, hown, rfl⟩ := inherits_of_sound hS hc hk hr ht
    obtain rfl : i = j := Option.some.inj (hi.symm.trans hj)
    obtain ⟨g, hg, hfield⟩ := exists_layer hown hf
    exact findField_isSome_foldl.2 (.inr ⟨g, hg, hfield.name⟩)
  | @base d e x he _ ih =>
    intro hc id args oid fs hr ht
    have hce : p.ExtendsAll c e := hc.tail he
    obtain ⟨hk, i, hi, t, htmem, hbase⟩ := he
    obtain ⟨j, hj, layers, own, hlayers, -, rfl⟩ := inherits_of_sound hS hc hk hr ht
    obtain rfl : i = j := Option.some.inj (hi.symm.trans hj)
    obtain ⟨layer, hlayer, hl⟩ := exists_layer hlayers htmem
    obtain ⟨id', args', oid', hr', ht'⟩ := hl e hbase
    obtain ⟨g, hg, hname⟩ := exists_of_findField (ih hce hr' ht')
    refine findField_isSome_foldl.2 (.inl ?_)
    exact findField_isSome_foldl.2 (.inr ⟨g, mem_flatten.2 ⟨layer, hlayer, hg⟩, hname⟩)

/-- The last own field of a name is the field of that name, whatever is inherited. -/
theorem findField_of_own {f : Field} {l₂ : List Field} (hlast : ∀ f' ∈ l₂, f'.name ≠ f.name)
    {l₁ : List Field} {own inherited : List TyField}
    (hown : Forall₂ (OwnField p i) (l₁ ++ f :: l₂) own) :
    ∃ g, findField (own.foldl putField inherited) f.name = some g ∧ OwnField p i f g := by
  induction l₁ generalizing own inherited with
  | nil =>
    rw [nil_append, forall₂_cons_left_iff] at hown
    obtain ⟨g, rest, hg, hrest, rfl⟩ := hown
    refine ⟨g, ?_, hg⟩
    rw [foldl_cons]
    apply findField_foldl_putField
    · rw [findField_putField, if_pos hg.name]
    · intro g' hg'
      obtain ⟨f', hf', hfield⟩ := exists_layer hrest.flip hg'
      rw [hfield.name]
      exact hlast f' hf'
  | cons f₀ l₁ ih =>
    rw [cons_append, forall₂_cons_left_iff] at hown
    obtain ⟨g₀, rest, -, hrest, rfl⟩ := hown
    rw [foldl_cons]
    exact ih hrest

/-- Both fields are what one and the same declaration of a field becomes. -/
def SameField (p : Program) (g₁ g₂ : TyField) : Prop :=
  ∃ i f, OwnField p i f g₁ ∧ OwnField p i f g₂

theorem SameField.name {g₁ g₂ : TyField} (h : SameField p g₁ g₂) : g₁.name = g₂.name := by
  obtain ⟨i, f, h₁, h₂⟩ := h
  rw [h₁.name, h₂.name]

theorem putField_same {f₁ f₂ : TyField} (hf : SameField p f₁ f₂) {fs₁ fs₂ : List TyField}
    (h : Forall₂ (SameField p) fs₁ fs₂) :
    Forall₂ (SameField p) (putField fs₁ f₁) (putField fs₂ f₂) := by
  induction h with
  | nil => exact .cons hf .nil
  | @cons g₁ g₂ gs₁ gs₂ hg hgs ih =>
    rw [putField, putField, hg.name, hf.name]
    split
    · exact .cons hf hgs
    · exact .cons hg ih

theorem foldl_putField_same {new₁ new₂ : List TyField}
    (hnew : Forall₂ (SameField p) new₁ new₂) {fs₁ fs₂ : List TyField}
    (h : Forall₂ (SameField p) fs₁ fs₂) :
    Forall₂ (SameField p) (new₁.foldl putField fs₁) (new₂.foldl putField fs₂) := by
  induction hnew generalizing fs₁ fs₂ with
  | nil => exact h
  | cons hf _ ih =>
    rw [foldl_cons, foldl_cons]
    exact ih (putField_same hf h)

theorem forall₂_of_common {α β γ : Type} {R : α → β → Prop} {S : α → γ → Prop} {T : β → γ → Prop}
    {xs : List α} {ys : List β} {zs : List γ} (hR : Forall₂ R xs ys)
    (hS : Forall₂ S xs zs) (h : ∀ x ∈ xs, ∀ y z, R x y → S x z → T y z) :
    Forall₂ T ys zs := by
  induction hR generalizing zs with
  | nil =>
    cases hS
    exact .nil
  | cons hr _ ih =>
    obtain ⟨z, zs, hs, hss, rfl⟩ := forall₂_cons_left_iff.1 hS
    refine .cons (h _ mem_cons_self _ _ hr hs) (ih hss ?_)
    intro x hx
    exact h x (mem_cons_of_mem _ hx)

/-- An interface has the same fields in every state, by induction along what it extends. -/
theorem same_fields (hS : Sound p (Complete p c) U r) (hS' : Sound p (Complete p c) U' r')
    (hacc : Acc (fun e d => p.Extends d e) d) : p.ExtendsAll c d → p.ExtendsOnlyInterfaces d →
      d.kind = .interfaceDecl → ∀ {id args oid fs id' args' oid' fs'},
      r.Holds id d args → r.graph.target? id = some (.object oid fs) →
      r'.Holds id' d args' → r'.graph.target? id' = some (.object oid' fs') →
      Forall₂ (SameField p) fs fs' := by
  induction hacc with
  | intro d _ ih =>
    intro hc honly hk id args oid fs id' args' oid' fs' hr ht hr' ht'
    obtain ⟨i, hi, layers, own, hlayers, hown, rfl⟩ := inherits_of_sound hS hc hk hr ht
    obtain ⟨j, hj, layers', own', hlayers', hown', rfl⟩ := inherits_of_sound hS' hc hk hr' ht'
    obtain rfl : i = j := Option.some.inj (hi.symm.trans hj)
    have hlayersSame : Forall₂ (Forall₂ (SameField p)) layers layers' := by
      refine forall₂_of_common hlayers hlayers' ?_
      intro t htmem layer layer' hl hl'
      obtain ⟨e, he⟩ := honly d .refl i hi t htmem
      obtain ⟨_, _, _, hre, hte⟩ := hl e he
      obtain ⟨_, _, _, hre', hte'⟩ := hl' e he
      have hextends : p.Extends d e := ⟨hk, i, hi, t, htmem, he⟩
      obtain ⟨_, _, _, _, _, hke, _⟩ := he
      exact ih e hextends (hc.tail hextends) (honly.base hextends) hke hre hte hre' hte'
    have hownSame : Forall₂ (SameField p) own own' :=
      forall₂_of_common hown hown' fun f _ g g' hg hg' => ⟨i, f, hg, hg'⟩
    exact foldl_putField_same hownSame
      (foldl_putField_same (rel_flatten hlayersSame) .nil)

end Inheriting

/-! ## Interfaces that lose a base -/

/-- The interface `a` has the name `x` from its base `b` alone: neither its own fields nor what its
other bases declare bear it. -/
def Program.OnlyThrough (p : Program) (a b : Declaration) (x : String) : Prop :=
  ∀ i, p.interface? a = some i → (∀ f ∈ i.fields, f.name ≠ x) ∧
    ∀ t ∈ i.parents, ∃ e, p.BaseRef i t e ∧
      (e = b ∨ p.ExtendsOnlyInterfaces e ∧ ¬ p.Declares e x)

/-- What an interface stands for while `b` is under way: nothing that it does not declare, and for
`a` not the name `x`. What its body names has been asked for. -/
def Loses (p : Program) (a : Declaration) (x : String) (d : Declaration) (r : Resolution)
    (t : Ty) : Prop :=
  (d.kind = .interfaceDecl → ∃ i oid fs, p.interface? d = some i ∧ t = .object oid fs ∧
    (p.ExtendsOnlyInterfaces d → ∀ g ∈ fs, p.Declares d g.name) ∧
    (d = a → ∀ g ∈ fs, g.name ≠ x)) ∧
  ∀ e, p.BodyNamed d e → r.Knows e

/-- The policy for a base without type parameters that is under way: an interface that extends it
finds nothing in it. -/
def losing (p : Program) {a b : Declaration} {x : String} (hb : p.paramsOf b = [])
    (ha : p.OnlyThrough a b x) : Policy p where
  Asks := fun U d => (∃ u ∈ U, u.2 = b) ∨ d = b
  Means := Loses p a x
  upward := by
    intro d t r r' hg h
    exact ⟨h.1, fun e he => Resolution.knows_upward e _ _ hg (h.2 e he)⟩
  object := by
    intro d r t h hk
    obtain ⟨i, oid, fs, -, ht, -⟩ := h.1 hk
    exact ⟨oid, fs, ht⟩
  ofDefault := by
    intro U d e hasks hnamed
    obtain hasks | rfl := hasks
    · exact Or.inl hasks
    · obtain ⟨name, hname, -⟩ := hnamed
      rw [hb] at hname
      cases hname
  ofBody := by
    intro U id d e hasks _
    obtain ⟨u, hu, rfl⟩ | rfl := hasks
    · exact Or.inl ⟨u, List.mem_cons_of_mem _ hu, rfl⟩
    · exact Or.inl ⟨_, List.mem_cons_self, rfl⟩
  ofInterface := by
    intro U id d i r oid fs hasks hk hdecl hi hS hread hknown
    obtain ⟨layers, own, hlayers, hown, rfl⟩ := hread
    -- a field comes from the interface itself or from a layer that is not empty
    have hsource : ∀ g ∈ own.foldl putField (layers.flatten.foldl putField []),
        (∃ f ∈ i.fields, g.name = f.name) ∨
          ∃ t ∈ i.parents, ∃ layer, LayerRead p ((id, d) :: U) i r t layer ∧ g ∈ layer := by
      intro g hg
      obtain hg | hg := mem_foldl mem_putField hg
      · obtain hg | hg := mem_foldl mem_putField hg
        · cases hg
        · obtain ⟨layer, hlayer, hg⟩ := List.mem_flatten.1 hg
          obtain ⟨t, ht, hl⟩ := exists_layer hlayers.flip hlayer
          exact Or.inr ⟨t, ht, layer, hl, hg⟩
      · obtain ⟨f, hf, hfield⟩ := exists_layer hown.flip hg
        exact Or.inl ⟨f, hf, hfield.name⟩
    -- a layer that is not empty is that of a base that stands for something
    have hbase : ∀ {t e layer g}, p.BaseRef i t e → LayerRead p ((id, d) :: U) i r t layer →
        g ∈ layer → ∃ id' args oid', r.Holds id' e args ∧
          r.graph.target? id' = some (.object oid' layer) := by
      intro t e layer g he hl hg
      obtain ⟨id', args, hr, ⟨oid', ht⟩ | ⟨rfl, -⟩⟩ := hl e he
      · exact ⟨id', args, oid', hr, ht⟩
      · cases hg
    have hmeans : ∀ {t e layer g}, p.BaseRef i t e → LayerRead p ((id, d) :: U) i r t layer →
        g ∈ layer → p.ExtendsOnlyInterfaces e → p.Declares e g.name := by
      intro t e layer g he hl hg honly
      obtain ⟨id', args, oid', hr, ht⟩ := hbase he hl hg
      obtain ⟨_, _, _, _, _, hke, _⟩ := he
      obtain ⟨j, oid'', fs, -, heq, hdeclares, -⟩ := (hS.means hr ht).1 hke
      cases heq
      exact hdeclares honly g hg
    refine ⟨fun _ => ⟨i, oid, _, hi, rfl, ?_, ?_⟩, hknown⟩
    · intro honly g hg
      obtain ⟨f, hf, hname⟩ | ⟨t, ht, layer, hl, hg⟩ := hsource g hg
      · rw [hname]
        exact .own hk hi hf
      · obtain ⟨e, he⟩ := honly d .refl i hi t ht
        have hextends : p.Extends d e := ⟨hk, i, hi, t, ht, he⟩
        exact .base hextends (hmeans he hl hg (honly.base hextends))
    · rintro rfl g hg
      obtain ⟨hfields, hparents⟩ := ha i hi
      obtain ⟨f, hf, hname⟩ | ⟨t, ht, layer, hl, hg⟩ := hsource g hg
      · rw [hname]
        exact hfields f hf
      · obtain ⟨e, he, rfl | ⟨honly, hnot⟩⟩ := hparents t ht
        · -- the base is under way, so it stands for nothing
          obtain ⟨id', args, oid', hr, htarget⟩ := hbase he hl hg
          obtain ⟨u, hu, rfl⟩ : ∃ u ∈ (id, d) :: U, u.2 = e := by
            obtain ⟨u, hu, hub⟩ | hd := hasks
            · exact ⟨u, List.mem_cons_of_mem _ hu, hub⟩
            · exact ⟨_, List.mem_cons_self, hd⟩
          obtain ⟨⟨args', hr'⟩, hnone⟩ := hS.underWay hu
          obtain rfl := (hS.known hr).2.2 hb
          obtain rfl := (hS.known hr').2.2 hb
          rw [← hS.sameKey hr hr' rfl, htarget] at hnone
          cases hnone
        · intro hx
          rw [← hx] at hnot
          exact hnot (hmeans he hl hg honly)
  ofAlias := fun hk hknown => ⟨fun hinterface => (nomatch hk.symm.trans hinterface), hknown⟩

/-! ## Queries -/

/-- A query to resolve an annotation in a file, where type parameters stand for types. -/
structure TypeQuery where
  scope : Option SourceFile
  env : Env
  type : TypeExpr

/-- Resolve what is asked for. -/
def TypeQuery.resolve (p : Program) (inst : Resolve.Instantiate) (q : TypeQuery) : Resolve Ty :=
  Resolve.type p inst q.scope q.env q.type

/-- Queries one after another; the result is that of the last. -/
def resolveAfter (p : Program) (inst : Resolve.Instantiate) : List TypeQuery → TypeQuery → Resolve Ty
  | [], q => q.resolve p inst
  | earlier :: qs, q => do
    let _ ← earlier.resolve p inst
    resolveAfter p inst qs q

/-- The query is made in a file of the program, or in none. -/
def TypeQuery.Within (p : Program) (q : TypeQuery) : Prop := ∀ f ∈ q.scope, f ∈ p.files

/-- The query asks for a declaration by its name. -/
def TypeQuery.Names (p : Program) (q : TypeQuery) (d : Declaration) : Prop :=
  q.env = [] ∧ ∃ loc name, q.type = .reference loc name [] ∧ p.resolve? q.scope name = some d ∧
    name ∉ primitiveWords

/-- Instantiation that has no result where something would be nested too deep. -/
def Program.instantiateUncut (p : Program) : Resolve.Instantiate :=
  Resolve.instantiate p Resolve.uncut p.resolveBound 0

/-- After some queries, asking for `d` by its name gives `t` and leaves the state `r`, and nothing
has been cut off for being nested too deep. -/
structure ResolvedAfter (p : Program) (qs : List TypeQuery) (d : Declaration) (t : Ty)
    (r : Resolution) : Prop where
  within : ∀ q ∈ qs, q.Within p
  result : ∃ q : TypeQuery, q.Within p ∧ q.Names p d ∧
    Gives (resolveAfter p p.instantiate qs q) Resolution.empty t r ∧
    Gives (resolveAfter p p.instantiateUncut qs q) Resolution.empty t r

theorem resolveAfter_refines {inst inst' : Resolve.Instantiate}
    (h : ∀ d args, Refines (inst d args) (inst' d args)) (qs : List TypeQuery) (q : TypeQuery) :
    Refines (resolveAfter p inst qs q) (resolveAfter p inst' qs q) := by
  induction qs with
  | nil => exact congruence_refines.type h q.type
  | cons earlier qs ih => exact .bind (congruence_refines.type h earlier.type) fun _ => ih

/-- A run that has a result where nothing may be cut off is a run of the resolver. -/
theorem ResolvedAfter.of_uncut {qs : List TypeQuery} {t : Ty} (hqs : ∀ q ∈ qs, q.Within p)
    {q : TypeQuery} (hq : q.Within p) (hnames : q.Names p d)
    (h : Gives (resolveAfter p p.instantiateUncut qs q) Resolution.empty t r) :
    ResolvedAfter p qs d t r := by
  refine ⟨hqs, q, hq, hnames, ?_, h⟩
  refine resolveAfter_refines (fun d args => ?_) qs q _ _ _ h
  refine congruence_refines.instantiate (fun d => ?_) _ _ d args
  intro r t r' hcut
  exact absurd hcut not_gives_failure

section Queries

variable {p : Program} (P : Policy p)

/-- A query for a name, where the declaration may be asked for. -/
theorem names_walks (hp : p.Numbered) {q : TypeQuery} (hq : q.Within p) (hnames : q.Names p d)
    (hd : d.IsShared) (hasks : P.Asks [] d) :
    Walks (Sound p P.Means []) (q.resolve p p.instantiateUncut) (RefersTo d) := by
  obtain ⟨henv, loc, name, htype, hname, hprim⟩ := hnames
  unfold TypeQuery.resolve
  rw [henv, htype]
  refine named_walks P.upward Resolve.binds_nil hname hd (fun _ => ⟨by simp, hprim⟩) ?_
  intro other hother e he args
  have hfree : TypeExpr.freeNames [] (.reference loc name []) = [name] := by
    simp [TypeExpr.freeNames, TypeExpr.applications, hprim]
  rw [hfree, mem_singleton] at hother
  rw [hother, hname] at he
  cases he
  exact instantiate_walks P hp _ _ (Program.declared_of_resolve hq hname) hasks args

/-- Queries keep the invariant if every declaration may be asked for. -/
theorem resolve_walks (hp : p.Numbered) (hasks : ∀ d, P.Asks [] d) {q : TypeQuery}
    (hq : q.Within p) :
    Walks (Sound p P.Means []) (q.resolve p p.instantiateUncut) fun _ _ => True := by
  refine (Resolve.type_walks (fresh_walks P.upward) Resolution.knows_upward (Resolve.binds_keys q.env)
    q.type ?_).weaken fun _ _ _ => trivial
  refine Supplies.answers ?_
  intro name hname e he args
  exact instantiate_walks P hp _ _ (Program.declared_of_resolve hq he) (hasks e) args

/-- A run of queries, by induction on them. -/
theorem resolveAfter_walks (hp : p.Numbered) (hasks : ∀ d, P.Asks [] d) {qs : List TypeQuery}
    (hqs : ∀ q ∈ qs, q.Within p) {q : TypeQuery} {Q : Ty → Resolution → Prop}
    (hq : Walks (Sound p P.Means []) (q.resolve p p.instantiateUncut) Q) :
    Walks (Sound p P.Means []) (resolveAfter p p.instantiateUncut qs q) Q := by
  induction qs with
  | nil => exact hq
  | cons earlier qs ih =>
    refine .bind (resolve_walks P hp hasks (hqs earlier mem_cons_self)) (fun _ => ?_)
      fun _ _ _ _ _ _ h => h
    exact ih fun q' hq' => hqs q' (mem_cons_of_mem _ hq')

end Queries

/-! ## Fields after any queries -/

/-- The policy that only knows that interfaces stand for object types. -/
def shaping (p : Program) : Policy p where
  Asks := fun _ _ => True
  Means := fun d _ t => d.kind = .interfaceDecl → ∃ oid fs, t = .object oid fs
  upward := fun _ _ _ _ _ h => h
  object := fun h hk => h hk
  ofDefault := fun _ _ => trivial
  ofBody := fun _ _ => trivial
  ofInterface := fun _ _ _ _ _ _ _ _ => ⟨_, _, rfl⟩
  ofAlias := fun hk _ hinterface => nomatch hk.symm.trans hinterface

theorem Sound.weaken {Means' : Declaration → Resolution → Ty → Prop} {U : UnderWay}
    (h : Sound p Means U r) (hm : ∀ d t, Means d r t → Means' d r t) : Sound p Means' U r :=
  ⟨h.entry, h.known, h.sameId, h.sameKey, h.fresh, h.underWay, h.done,
    fun hr ht => hm _ _ (h.means hr ht)⟩

/-- Without anything under way, a shared reference stands for something. -/
theorem Sound.target (h : Sound p Means [] r) {id : NodeId} {args : List Ty}
    (hr : r.Holds id d args) : ∃ t, r.graph.target? id = some t := by
  obtain hmem | ht := h.done hr
  · cases hmem
  · exact ht

section After

variable {p : Program} {qs : List TypeQuery} {d : Declaration} {t : Ty} {r : Resolution}

/-- An interface without a way back inherits everything when it is resolved. -/
theorem inherits_after (hp : p.Numbered) (hback : p.NoWayBack d) (hk : d.kind = .interfaceDecl)
    (h : ResolvedAfter p qs d t r) :
    Sound p (Complete p d) [] r ∧ ∃ id args oid fs, t = .reference id d args [] ∧
      r.Holds id d args ∧ r.graph.target? id = some (.object oid fs) := by
  obtain ⟨q, hq, hnames, -, hrun⟩ := h.result
  have hasks : ∀ d, (inheriting p hback).Asks [] d := by
    intro d u hu
    cases hu
  have hlast := names_walks (inheriting p hback) hp hq hnames (Or.inl hk) (hasks d)
  obtain ⟨hS, -, id, args, rfl, hr⟩ :=
    resolveAfter_walks (inheriting p hback) hp hasks h.within hlast _ _ _ hrun Sound.empty
  obtain ⟨t, ht⟩ := hS.target hr
  obtain ⟨oid, fs, rfl⟩ := (inheriting p hback).object (hS.means hr ht) hk
  exact ⟨hS, id, args, oid, fs, rfl, hr, ht⟩

/-- The body of `d` names an interface or an alias `e`. -/
def Program.Leads (p : Program) (d e : Declaration) : Prop := p.BodyNamed d e ∧ e.IsShared

/-- Everything that a finished reference leads to has been made, by induction on the way. -/
theorem holds_of_leads (hS : Sound p Means [] r)
    (hclosed : ∀ d t, Means d r t → ∀ e, p.BodyNamed d e → r.Knows e) {b a : Declaration}
    (hb : ∃ id args, r.Holds id b args) (hway : Relation.ReflTransGen p.Leads b a) :
    ∃ id args, r.Holds id a args := by
  induction hway with
  | refl => exact hb
  | tail _ hstep ih =>
    obtain ⟨id, args, hr⟩ := ih
    obtain ⟨t, ht⟩ := hS.target hr
    exact hclosed _ t (hS.means hr ht) _ hstep.1 hstep.2

/-- If a base leads to an interface that extends it and is resolved first, the interface does not get
what it would have from that base alone. -/
theorem loses_after (hp : p.Numbered) {a b : Declaration} {x : String}
    (hka : a.kind = .interfaceDecl) (hpa : p.paramsOf a = []) (hkb : b.kind = .interfaceDecl)
    (hpb : p.paramsOf b = []) (hway : Relation.ReflTransGen p.Leads b a)
    (honly : p.OnlyThrough a b x) {first : TypeQuery} (hfirst : first.Names p b)
    (h : ResolvedAfter p [first] a t r) :
    ∃ fs, fieldsOf r.graph t = some fs ∧ ∀ g ∈ fs, g.name ≠ x := by
  obtain ⟨q, hq, hnames, -, hrun⟩ := h.result
  obtain ⟨tb, r₁, hrun₁, hrun₂⟩ := gives_bind.1 hrun
  have hwithin : first.Within p := h.within first mem_cons_self
  -- while `b` is resolved, everything it leads to is resolved, `a` among it
  obtain ⟨hS₁, -, idb, argsb, -, hrb⟩ := names_walks (losing p hpb honly) hp hwithin hfirst
    (.inl hkb) (.inr rfl) _ _ _ hrun₁ Sound.empty
  obtain ⟨id, args, hr⟩ := holds_of_leads hS₁ (fun _ _ hm => hm.2) ⟨idb, argsb, hrb⟩ hway
  obtain rfl := (hS₁.known hr).2.2 hpa
  obtain ⟨ta, hta⟩ := hS₁.target hr
  obtain ⟨i, oid, fs, -, rfl, -, hlost⟩ := (hS₁.means hr hta).1 hka
  -- and what it stands for then it stands for ever after
  have hS₂ : Sound p (shaping p).Means [] r₁ := hS₁.weaken fun d t hm hk =>
    (losing p hpb honly).object hm hk
  obtain ⟨hS, hg, id', args', rfl, hr'⟩ :=
    names_walks (shaping p) hp hq hnames (.inl hka) trivial _ _ _ hrun₂ hS₂
  obtain rfl := (hS.known hr').2.2 hpa
  obtain rfl := hS.sameKey (hg.holds hr) hr' rfl
  exact ⟨fs, fieldsOf_reference (hg.target _ _ hta), hlost rfl⟩

end After

/-- **Inherited fields.** If, among an interface and all it extends, none leads back to one that
extends it, then the interface has, whatever was asked for before, a field for every name that it
or an interface it extends declares, and its own declarations count before inherited ones. If all of
these extend nothing but interfaces, its fields are the same after any queries, in the same order.
If on the other hand a base leads back and is asked for first, the interface that extends it does
not get the names that it has from that base alone. All this holds as long as nothing is cut off for
being nested too deep. -/
theorem interface_fields {p : Program} (hp : p.Numbered) :
    (∀ d i, d.kind = .interfaceDecl → p.interface? d = some i → p.NoWayBack d →
      (∀ qs t r, ResolvedAfter p qs d t r → ∃ fs, fieldsOf r.graph t = some fs ∧
        (∀ x, p.Declares d x → (findField fs x).isSome) ∧
        ∀ l₁ f l₂, i.fields = l₁ ++ f :: l₂ → (∀ f' ∈ l₂, f'.name ≠ f.name) →
          ∃ g, findField fs f.name = some g ∧ OwnField p i f g) ∧
      (p.ExtendsOnlyInterfaces d → ∀ qs t r qs' t' r' fs fs', ResolvedAfter p qs d t r →
        ResolvedAfter p qs' d t' r' → fieldsOf r.graph t = some fs →
        fieldsOf r'.graph t' = some fs' → List.Forall₂ (SameField p) fs fs')) ∧
    ∀ a b x first t r, p.Extends a b → p.paramsOf a = [] → p.paramsOf b = [] →
      Relation.ReflTransGen p.Leads b a → p.Declares b x → p.OnlyThrough a b x →
      first.Names p b → ResolvedAfter p [first] a t r →
        p.Declares a x ∧ ∃ fs, fieldsOf r.graph t = some fs ∧ findField fs x = none := by
  refine ⟨?_, ?_⟩
  · intro d i hk hi hback
    refine ⟨?_, ?_⟩
    · intro qs t r h
      obtain ⟨hS, id, args, oid, fs, rfl, hr, ht⟩ := inherits_after hp hback hk h
      refine ⟨fs, fieldsOf_reference ht, fun x hx => findField_of_declares hS hx .refl hr ht, ?_⟩
      intro l₁ f l₂ hfields hlast
      obtain ⟨j, hj, layers, own, -, hown, rfl⟩ := inherits_of_sound hS .refl hk hr ht
      obtain rfl : i = j := Option.some.inj (hi.symm.trans hj)
      rw [hfields] at hown
      exact findField_of_own hlast hown
    · intro honly qs t r qs' t' r' fs fs' h h' hfs hfs'
      obtain ⟨hS, id, args, oid, gs, rfl, hr, ht⟩ := inherits_after hp hback hk h
      obtain ⟨hS', id', args', oid', gs', rfl, hr', ht'⟩ := inherits_after hp hback hk h'
      rw [fieldsOf_reference ht] at hfs
      rw [fieldsOf_reference ht'] at hfs'
      cases hfs
      cases hfs'
      obtain ⟨_, _, _, -, -, hmeans⟩ := hS.means hr ht hk
      exact same_fields hS hS' (hmeans .refl).1 .refl honly hk hr ht hr' ht'
  · intro a b x first t r hextends hpa hpb hway hx honly hfirst h
    refine ⟨.base hextends hx, ?_⟩
    obtain ⟨hka, i, hi, u, hu, hbase⟩ := hextends
    obtain ⟨_, _, _, _, _, hkb, _⟩ := hbase
    obtain ⟨fs, hfs, hnot⟩ := loses_after hp hka hpa hkb hpb hway honly hfirst h
    refine ⟨fs, hfs, ?_⟩
    unfold findField
    rw [find?_eq_none]
    intro g hg
    simpa using hnot g hg

/-! ## Two families of interfaces -/

namespace Family

/-- The declaration of an interface. -/
def decl (id : Nat) (name : String) : Declaration := ⟨id, name, .interfaceDecl, "a.ts", ⟨1, 1⟩⟩

/-- A field with a named type. -/
def field (name type : String) : Field where
  loc := ⟨1, 1⟩
  name := name
  type := some (.reference ⟨1, 1⟩ type [])
  optional := false
  static := false
  readOnly := false
  definite := false
  init := none

/-- An interface with fields that extends others by name. -/
def interface (id : Nat) (name : String) (parents : List String) (fields : List Field) :
    InterfaceDecl :=
  ⟨decl id name, [], parents.map fun parent => .reference ⟨1, 1⟩ parent [], fields, []⟩

/-- `Derived` extends `Base`, whose field `back` leads to it; `Own` extends `Plain`, which leads
nowhere. -/
def program : Program where
  files := [
    { path := "a.ts", external := false, ambient := false, classes := [], aliases := []
      decorators := []
      interfaces := [
        interface 0 "Base" [] [field "back" "Derived", field "y" "string"],
        interface 1 "Derived" ["Base"] [field "x" "string"],
        interface 2 "Plain" [] [field "y" "string"],
        interface 3 "Own" ["Plain"] [field "next" "Own"]] }]

/-- A query for a name. -/
def query (name : String) : TypeQuery := ⟨none, [], .reference ⟨1, 1⟩ name []⟩

theorem query_names {name : String} (h : program.resolve? none name = some d)
    (hprim : name ∉ primitiveWords) : (query name).Names program d :=
  ⟨rfl, ⟨1, 1⟩, name, rfl, h, hprim⟩

theorem query_within (name : String) : (query name).Within program := by
  intro f hf
  cases hf

/-- The only base of an interface that extends one other. -/
theorem base_eq {t : TypeExpr} {name : String} (ht : t = .reference ⟨1, 1⟩ name [])
    (hd : program.resolve? (program.fileOf? i.decl) name = some d) (he : program.BaseRef i t e) :
    e = d := by
  obtain ⟨loc, name', args, heq, hname, -⟩ := he
  rw [ht] at heq
  cases heq
  exact Option.some.inj (hname.symm.trans hd)

theorem extends_own (h : program.Extends (decl 3 "Own") e) : e = decl 2 "Plain" := by
  obtain ⟨-, i, hi, t, ht, he⟩ := h
  cases hi
  exact base_eq (mem_singleton.1 ht) (by decide) he

theorem not_extends_plain : ¬ program.Extends (decl 2 "Plain") e := by
  rintro ⟨-, i, hi, t, ht, -⟩
  cases hi
  cases ht

theorem reaches_plain (h : program.Reaches (decl 2 "Plain") e) : e = decl 2 "Plain" := by
  induction h with
  | refl => rfl
  | tail _ hstep ih =>
    subst ih
    have hbody : program.bodyNames (decl 2 "Plain") = [] := by decide
    obtain ⟨name, hname, -⟩ | ⟨name, hname, -⟩ := hstep
    · rw [hbody] at hname
      cases hname
    · cases hname

theorem noWayBack_own : program.NoWayBack (decl 3 "Own") := by
  intro a b ha hab hreach
  obtain rfl | ⟨c, hc, hca⟩ := Relation.ReflTransGen.cases_head ha
  · obtain rfl := extends_own hab
    exact absurd (reaches_plain hreach) (by decide)
  · obtain rfl := extends_own hc
    obtain rfl | ⟨c', hc', -⟩ := Relation.ReflTransGen.cases_head hca
    · exact not_extends_plain hab
    · exact not_extends_plain hc'

theorem extends_derived : program.Extends (decl 1 "Derived") (decl 0 "Base") := by
  refine ⟨rfl, _, rfl, _, mem_singleton_self _, ⟨1, 1⟩, "Base", [], rfl, by decide, rfl, ?_⟩
  intro _
  exact ⟨by simp [interface], by decide⟩

theorem leads_base : program.Leads (decl 0 "Base") (decl 1 "Derived") :=
  ⟨⟨"Derived", by decide, by decide⟩, .inl rfl⟩

theorem onlyThrough_derived : program.OnlyThrough (decl 1 "Derived") (decl 0 "Base") "y" := by
  intro i hi
  cases hi
  refine ⟨?_, ?_⟩
  · intro f hf
    obtain rfl := mem_singleton.1 hf
    decide
  · intro t ht
    obtain rfl := mem_singleton.1 ht
    refine ⟨decl 0 "Base", ⟨⟨1, 1⟩, "Base", [], rfl, by decide, rfl, fun _ => ?_⟩, .inl rfl⟩
    exact ⟨by simp [interface], by decide⟩

/-- A run of queries for names that has a result. -/
theorem resolvedAfter (earlier : List String) (name : String)
    (hd : program.resolve? none name = some d) (hprim : name ∉ primitiveWords)
    (h : ((resolveAfter program program.instantiateUncut (earlier.map query)
      (query name)).run Resolution.empty).isSome = true) :
    ∃ t r, ResolvedAfter program (earlier.map query) d t r := by
  obtain ⟨⟨t, r⟩, hrun⟩ := Option.isSome_iff_exists.1 h
  refine ⟨t, r, .of_uncut ?_ (query_within name) (query_names hd hprim) hrun⟩
  intro q hq
  obtain ⟨n, -, rfl⟩ := mem_map.1 hq
  exact query_within n

end Family

/-- `Own` has what `Plain` declares, after a query for `Plain`; `Derived` does not have what `Base`
declares, after a query for `Base`. -/
theorem interface_fields_family :
    (∃ t r fs, ResolvedAfter Family.program [Family.query "Plain"] (Family.decl 3 "Own") t r ∧
      fieldsOf r.graph t = some fs ∧ (findField fs "y").isSome) ∧
    ∃ t r fs, ResolvedAfter Family.program [Family.query "Base"] (Family.decl 1 "Derived") t r ∧
      Family.program.Declares (Family.decl 1 "Derived") "y" ∧ fieldsOf r.graph t = some fs ∧
      findField fs "y" = none := by
  have hp : Family.program.Numbered := by
    unfold Program.Numbered
    decide
  obtain ⟨hkept, hlost⟩ := interface_fields hp
  refine ⟨?_, ?_⟩
  · obtain ⟨t, r, h⟩ := Family.resolvedAfter ["Plain"] "Own" (d := Family.decl 3 "Own")
      (by decide) (by decide) (by decide +kernel)
    have hplain : Family.program.Declares (Family.decl 2 "Plain") "y" :=
      .own rfl rfl (f := Family.field "y" "string") (mem_singleton_self _)
    have hown : Family.program.Extends (Family.decl 3 "Own") (Family.decl 2 "Plain") := by
      refine ⟨rfl, _, rfl, _, mem_singleton_self _, ⟨1, 1⟩, "Plain", [], rfl, by decide, rfl, ?_⟩
      intro _
      exact ⟨by simp [Family.interface], by decide⟩
    obtain ⟨hfields, -⟩ := hkept _ _ rfl rfl Family.noWayBack_own
    obtain ⟨fs, hfs, hdeclared, -⟩ := hfields _ t r h
    exact ⟨t, r, fs, h, hfs, hdeclared "y" (.base hown hplain)⟩
  · obtain ⟨t, r, h⟩ := Family.resolvedAfter ["Base"] "Derived" (d := Family.decl 1 "Derived")
      (by decide) (by decide) (by decide +kernel)
    have hbase : Family.program.Declares (Family.decl 0 "Base") "y" := by
      refine .own rfl rfl (f := Family.field "y" "string") ?_
      exact mem_cons_of_mem _ (mem_singleton_self _)
    obtain ⟨hdeclares, fs, hfs, hnone⟩ := hlost _ _ "y" (Family.query "Base") t r
      Family.extends_derived rfl rfl (.single Family.leads_base) hbase Family.onlyThrough_derived
      (Family.query_names (by decide) (by decide)) h
    exact ⟨t, r, fs, h, hdeclares, hfs, hnone⟩

end Componentry
