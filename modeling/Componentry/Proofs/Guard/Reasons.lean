import Componentry.Proofs.Guard.Repetition

/-!
# Reasons and warnings

A part of a type that cannot be tested leaves two traces: a guard that lets everything pass, with a
reason, and a warning with the same reason. The guard stands in the result, or in a named guard that
was compiled on the way there; the warning goes to the end of the warnings.

`Compiler.Accounts` says that the two traces of a run agree: the reasons in its result and in the
named guards that it added are, in some order, those of the warnings that it added. Runs that follow
each other add up (`Accounts.trans`), and a named guard that is met again adds nothing on either
side. So every request accounts for its reasons (`reasons_accounted`).

Members of a type without fields are the exception: there is no guard, and an unknown type still
warns (`yields_memberGuards_none`).
-/

namespace Componentry

open List Guard

variable {g : Graph} {t : Ty} {ts : List Ty} {build : List Guard → Guard} {c c₁ c' : Compiler}
  {r : Guard} {rs : List Guard} {follow : Compile.CompileAt} {underWay : List String}

/-! ## The reasons of guards -/

theorem Guard.reasonsAll_eq_flatMap (gs : List Guard) :
    reasonsAll gs = gs.flatMap reasons := by
  induction gs with
  | nil => rfl
  | cons g gs ih => rw [reasonsAll, flatMap_cons, ih]

/-- An absent value is let pass for no reason of its own. -/
@[simp] theorem Guard.reasons_optional (g : Guard) : g.optional.reasons = g.reasons := by
  simp [optional, reasons, reasonsAll]

/-- A composed type has the reasons of its parts. -/
theorem Ty.Composed.reasons (h : t.Composed ts build) {gs : List Guard}
    (hlength : gs.length = ts.length) : (build gs).reasons = gs.flatMap reasons := by
  cases h with
  | array =>
    obtain ⟨g, rfl⟩ := length_eq_one_iff.1 hlength
    simp [reasons]
  | @object i fields =>
    rw [length_map] at hlength
    rw [reasons]
    induction fields generalizing gs with
    | nil => simp_all [reasonsFields]
    | cons f fields ih =>
      cases gs with
      | nil => cases hlength
      | cons g gs => simp [reasonsFields, ih (Nat.succ.inj hlength)]
  | _ => exact reasonsAll_eq_flatMap gs

/-! ## Accounts -/

/-- The reasons that the warnings give. -/
def givenReasons (ws : List GuardWarning) : List String :=
  (ws.map GuardWarning.reason).filter (· ≠ "")

/-- The reasons of the result and of the new named guards are those of the new warnings. -/
def Compiler.Accounts (c : Compiler) (reasons : List String) (c' : Compiler) : Prop :=
  ∃ added new, c'.arena.entries = c.arena.entries ++ added ∧ c'.warnings = c.warnings ++ new ∧
    (reasons ++ added.flatMap fun e => e.2.reasons).Perm (givenReasons new)

namespace Compiler

theorem Accounts.of_eq (harena : c'.arena = c.arena) (hwarnings : c'.warnings = c.warnings) :
    c.Accounts [] c' :=
  ⟨[], [], by simp [harena], by simp [hwarnings], .refl _⟩

/-- A guard that lets everything pass, and its warning. -/
theorem Accounts.warned (w : GuardWarning) (harena : c'.arena = c.arena)
    (hwarnings : c'.warnings = c.warnings ++ [w]) :
    c.Accounts (always w.reason).reasons c' := by
  refine ⟨[], [w], by simp [harena], hwarnings, ?_⟩
  by_cases hreason : w.reason = "" <;> simp [givenReasons, reasons, hreason]

theorem Accounts.trans {reasons reasons' : List String} (h : c.Accounts reasons c₁)
    (h' : c₁.Accounts reasons' c') : c.Accounts (reasons ++ reasons') c' := by
  obtain ⟨added, new, hentries, hwarnings, hperm⟩ := h
  obtain ⟨added', new', hentries', hwarnings', hperm'⟩ := h'
  refine ⟨added ++ added', new ++ new', ?_, ?_, ?_⟩
  · rw [hentries', hentries, append_assoc]
  · rw [hwarnings', hwarnings, append_assoc]
  · have hgiven : givenReasons (new ++ new') = givenReasons new ++ givenReasons new' := by
      simp [givenReasons]
    rw [hgiven, flatMap_append, append_assoc]
    refine .trans ?_ (hperm.append hperm')
    rw [append_assoc]
    refine .append_left _ ?_
    rw [← append_assoc, ← append_assoc]
    exact .append_right _ perm_append_comm

/-- Under a name, the reasons of a body move from the result to the named guards. -/
theorem Accounts.define {key : String} {b : Guard} (h : c.Accounts b.reasons c₁)
    (hkey : key ∉ c₁.arena.keys) :
    c.Accounts (ref key).reasons { c₁ with arena := c₁.arena.define key b } := by
  obtain ⟨added, new, hentries, hwarnings, hperm⟩ := h
  refine ⟨added ++ [(key, b)], new, ?_, hwarnings, ?_⟩
  · rw [Arena.entries_define hkey, hentries, append_assoc]
  · simpa [reasons] using perm_append_comm.trans hperm

end Compiler

/-! ## Compiling -/

theorem Compiles.accounts {names : List String} (h : Compiles g underWay ts c rs names c') :
    c.Accounts (rs.flatMap reasons) c' := by
  induction h with
  | nil => exact .of_eq rfl rfl
  | append _ _ ih ih' =>
    rw [flatMap_append]
    exact ih.trans ih'
  | basic ht hr =>
    rw [← hr fun _ => "", flatMap_singleton, ht.byName_bare.2]
    exact .of_eq rfl rfl
  | composed ht h ih =>
    rw [flatMap_singleton, ht.reasons h.length_eq]
    exact ih
  | unknown | bodyless =>
    rw [flatMap_singleton]
    exact .warned _ rfl rfl
  | ofClass | known => exact .of_eq rfl rfl
  | body hu hk hkey hway ht h ih =>
    rw [flatMap_singleton] at ih ⊢
    exact .define ih (h.grows.1.fresh hkey)

theorem typeGuard_accounts (h : Yields (typeGuard g t) c r c') : c.Accounts r.reasons c' := by
  obtain ⟨names, hrun⟩ := typeGuard_compiles h
  simpa using hrun.accounts

theorem memberGuards_accounts {fields : List TyField} {ks : List FieldGuard}
    (hfields : fieldsOf g t = some fields) (h : Yields (memberGuards g t) c ks c') :
    c.Accounts (ks.flatMap fun k => k.guard.reasons) c' := by
  obtain ⟨rs, hrun, rfl⟩ := (yields_memberGuards hfields).1 h
  have hreasons : ∀ {fs : List TyField} {rs : List Guard}, rs.length = fs.length →
      (((fs.zip rs).map fun p => p.1.member p.2).flatMap fun k => k.guard.reasons) =
        rs.flatMap reasons := by
    intro fs
    induction fs with
    | nil =>
      intro rs hlength
      rw [length_eq_zero_iff.1 hlength]
      rfl
    | cons f fs ih =>
      intro rs hlength
      cases rs with
      | nil => cases hlength
      | cons r rs =>
        have hmember : (f.member r).guard.reasons = r.reasons := by
          rw [TyField.member]
          split <;> simp
        simp [hmember, ih (Nat.succ.inj hlength)]
  obtain ⟨names, hrun⟩ := hrun.run
  have hlength := hrun.length_eq
  rw [length_map] at hlength
  rw [hreasons hlength]
  exact hrun.accounts

/-! ## Requests -/

/-- The reasons in the guards of an answer. -/
def GuardAnswer.reasons : GuardAnswer → List String
  | .type guard => guard.reasons
  | .members guards => guards.flatMap fun k => k.guard.reasons

/-- The type of a request for members has fields. -/
def GuardRequest.HasFields (g : Graph) : GuardRequest → Prop
  | .type _ => True
  | .members t => (fieldsOf g t).isSome = true

/-- In every state, a request adds named guards and warnings at the end. The reasons in the answer
and in the added guards are those of the added warnings, each as often. -/
theorem reasons_accounted {request : GuardRequest} {answer : GuardAnswer}
    (hfields : request.HasFields g) (h : Yields (request.answer g) c answer c') :
    ∃ added new, c'.arena.entries = c.arena.entries ++ added ∧ c'.warnings = c.warnings ++ new ∧
      (answer.reasons ++ added.flatMap fun e => e.2.reasons).Perm (givenReasons new) := by
  cases request with
  | type t =>
    obtain ⟨r, c₁, hrun, hp⟩ := yields_bind.1 h
    obtain ⟨rfl, rfl⟩ := yields_pure.1 hp
    exact typeGuard_accounts hrun
  | members t =>
    obtain ⟨ks, c₁, hrun, hp⟩ := yields_bind.1 h
    obtain ⟨rfl, rfl⟩ := yields_pure.1 hp
    obtain ⟨fields, hsome⟩ := Option.isSome_iff_exists.1 hfields
    exact memberGuards_accounts hsome hrun

/-- The interface with a value that cannot be tested. -/
def Linked.opaqueGraph : Graph :=
  ⟨3, [(0, .object 1 [.mk "next" Linked.node true,
    .mk "value" (.unrepresentable 2 "conditional type") false])]⟩

/-- Two nodes and a type that cannot be tested. -/
def Linked.chain : Ty :=
  .object 3 [.mk "first" Linked.node false, .mk "mode" (.unrepresentable 4 "mapped type") true,
    .mk "rest" Linked.node false]

/-- The body of the nodes is compiled once, and with it one of the two reasons. -/
theorem reasons_accounted_chain : ∃ answer c added new,
    Yields ((GuardRequest.members Linked.chain).answer Linked.opaqueGraph)
      ⟨⟨.path, [(0, "list@Node")]⟩, Arena.empty, []⟩ answer c ∧
    c.arena.entries = added ∧ c.warnings = new ∧ new.length = 2 ∧
    answer.reasons = ["mapped type"] ∧
    (answer.reasons ++ added.flatMap fun e => e.2.reasons).Perm (givenReasons new) := by
  obtain ⟨answer, c, hrun, htwo, hreasons⟩ : ∃ answer c,
      Yields ((GuardRequest.members Linked.chain).answer Linked.opaqueGraph)
        ⟨⟨.path, [(0, "list@Node")]⟩, Arena.empty, []⟩ answer c ∧ c.warnings.length = 2 ∧
        answer.reasons = ["mapped type"] := ⟨_, _, rfl, rfl, rfl⟩
  obtain ⟨added, new, hentries, hwarnings, hperm⟩ := reasons_accounted (by rfl) hrun
  rw [hwarnings] at htwo
  exact ⟨answer, c, added, new, hrun, hentries, hwarnings, htwo, hreasons, hperm⟩

end Componentry
