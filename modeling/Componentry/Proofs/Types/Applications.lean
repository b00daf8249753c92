import Componentry.Proofs.Types.Sharing

/-!
# Applications

Resolving an annotation asks for the declarations that it names, each with a number of arguments
(`TypeExpr.applications`). How many there are matters: defaults are only resolved for parameters
that have no argument. An application needs what the defaults of its parameters ask for
(`Program.Needs`), and enters what its body asks for (`Program.Enters`).

`Consults` says of a step that it asks for certain applications and otherwise always has a result.
So it returns if they all return, and if it has returned, so have they. All parts of resolving are
of this form, up to the instantiation of a declaration, which is a parameter here.
-/

namespace Componentry

open List

/-- A declaration, with the number of arguments that it is applied to. -/
structure Application where
  decl : Declaration
  args : Nat

namespace Program

/-- The names in the body of what a declaration declares. -/
def bodyApplications (p : Program) (d : Declaration) : List (String × Nat) :=
  let bound := (p.paramsOf d).map (·.name)
  match d.kind with
  | .interfaceDecl =>
    match p.interface? d with
    | some i => TypeExpr.applicationsAll bound i.parents ++ fieldApplications bound i.fields
    | none => []
  | .aliasDecl => ((p.alias? d).map fun a => a.type.applications bound).getD []
  | .classDecl | .decorator => []

/-- One of the names stands for the application in a file. -/
def Asks (p : Program) (scope : Option SourceFile) (names : List (String × Nat))
    (a : Application) : Prop :=
  ∃ name, (name, a.args) ∈ names ∧ p.resolve? scope name = some a.decl

/-- Defaults of type parameters of `a` ask for `b`. -/
def Needs (p : Program) (a b : Application) : Prop :=
  p.Asks (p.fileOf? a.decl) (defaultApplications [] (p.paramsOf a.decl) a.args) b

/-- The body of `a` asks for `b`. -/
def Enters (p : Program) (a b : Application) : Prop :=
  p.Asks (p.fileOf? a.decl) (p.bodyApplications a.decl) b

variable {p : Program} {scope : Option SourceFile} {a : Application}

theorem not_asks_nil : ¬ p.Asks scope [] a := by
  rintro ⟨name, hname, -⟩
  cases hname

theorem asks_append {xs ys : List (String × Nat)} :
    p.Asks scope (xs ++ ys) a ↔ p.Asks scope xs a ∨ p.Asks scope ys a := by
  constructor
  · rintro ⟨name, hname, hd⟩
    exact (mem_append.1 hname).imp (fun h => ⟨name, h, hd⟩) fun h => ⟨name, h, hd⟩
  · rintro (⟨name, hname, hd⟩ | ⟨name, hname, hd⟩)
    · exact ⟨name, mem_append_left _ hname, hd⟩
    · exact ⟨name, mem_append_right _ hname, hd⟩

end Program

/-! ## Steps that ask for applications -/

namespace Resolve

variable {α β : Type}

/-- The step has a result in every state. -/
def Returns (m : Resolve α) : Prop := ∀ r, ∃ a r', Gives m r a r'

theorem returns_pure (a : α) : Returns (pure a) := fun r => ⟨a, r, gives_pure.2 ⟨rfl, rfl⟩⟩

theorem Returns.bind {m : Resolve α} {f : α → Resolve β} (hm : Returns m)
    (hf : ∀ {r a r'}, Gives m r a r' → Returns (f a)) : Returns (m >>= f) := by
  intro r
  obtain ⟨a, r₁, ha⟩ := hm r
  obtain ⟨b, r', hb⟩ := hf ha r₁
  exact ⟨b, r', gives_bind.2 ⟨a, r₁, ha, hb⟩⟩

theorem returns_fresh : Returns fresh := fun _ => ⟨_, _, rfl⟩

/-- A new node for a value. -/
theorem returns_node (f : NodeId → β) : Returns (do return f (← fresh)) :=
  returns_fresh.bind fun _ => returns_pure _

/-- The application has a result, whatever the arguments and the state. -/
def Instantiate.Always (inst : Instantiate) (a : Application) : Prop :=
  ∀ args : List Ty, args.length = a.args → Returns (inst a.decl args)

/-- The application has a result for some arguments in some state. -/
def Instantiate.Ever (inst : Instantiate) (a : Application) : Prop :=
  ∃ (args : List Ty) (r : Resolution) (t : Ty) (r' : Resolution),
    args.length = a.args ∧ Gives (inst a.decl args) r t r'

/-- The step asks for all applications that the names stand for, and otherwise always has a
result. -/
structure Consults (p : Program) (inst : Instantiate) (scope : Option SourceFile)
    (names : List (String × Nat)) (m : Resolve α) : Prop where
  returns : (∀ b, p.Asks scope names b → inst.Always b) → Returns m
  asked : ∀ {r a r'}, Gives m r a r' → ∀ b, p.Asks scope names b → inst.Ever b

variable {p : Program} {inst : Instantiate} {scope : Option SourceFile}

theorem Consults.nothing {m : Resolve α} (h : Returns m) : Consults p inst scope [] m where
  returns _ := h
  asked _ _ hb := absurd hb Program.not_asks_nil

theorem Consults.bind {names more : List (String × Nat)} {m : Resolve α} {f : α → Resolve β}
    (hm : Consults p inst scope names m)
    (hf : ∀ {r a r'}, Gives m r a r' → Consults p inst scope more (f a)) :
    Consults p inst scope (names ++ more) (m >>= f) where
  returns h := by
    refine (hm.returns fun b hb => h b (Program.asks_append.2 (Or.inl hb))).bind fun ha => ?_
    exact (hf ha).returns fun b hb => h b (Program.asks_append.2 (Or.inr hb))
  asked h b hb := by
    obtain ⟨a, r₁, ha, hfa⟩ := gives_bind.1 h
    obtain hb | hb := Program.asks_append.1 hb
    · exact hm.asked ha b hb
    · exact (hf ha).asked hfa b hb

/-- Annotations, type parameters and bodies ask for the applications in them. -/
theorem consults_law : Law p scope inst inst fun names _ m _ => Consults p inst scope names m where
  pure a := .nothing (returns_pure a)
  bind hm hf := hm.bind hf
  get := .nothing fun r => ⟨r, r, gives_get.2 ⟨rfl, rfl⟩⟩
  fresh := .nothing returns_fresh
  ask {name d} args hd := by
    refine ⟨fun h => ?_, fun hgives b hb => ?_⟩
    · exact h ⟨d, args.length⟩ ⟨name, mem_singleton_self _, hd⟩ args rfl
    · obtain ⟨other, hother, hd'⟩ := hb
      obtain ⟨rfl, hargs⟩ := Prod.mk.inj (mem_singleton.1 hother)
      obtain rfl : d = b.decl := Option.some.inj (hd.symm.trans hd')
      exact ⟨args, _, _, _, hargs.symm, hgives⟩
  unknown hd hm := by
    refine ⟨fun _ => hm.returns fun b hb => absurd hb Program.not_asks_nil, ?_⟩
    rintro _ _ _ _ b ⟨other, hother, hd'⟩
    obtain ⟨rfl, -⟩ := Prod.mk.inj (mem_singleton.1 hother)
    rw [hd] at hd'
    cases hd'

theorem type_consults {env : Env} {bound : List String} (hbound : Binds env bound) (t : TypeExpr) :
    Consults p inst scope (t.applications bound) (type p inst scope env t) :=
  consults_law.type hbound t

end Resolve

end Componentry
