import Componentry.Proofs.Lifecycle.Capture
import Mathlib.Data.List.Nodup

/-!
# The names of the members

Moving code into the hook adds members to a class: the hook, if the class has none, and for every
constructor a field that keeps its parameters. A hook is refused if a member of another kind has its
name, but nothing is checked for the field. So the members keep distinct names exactly if there is no
constructor, or there is one and the name of its field is free (`hooked_names`).
-/

namespace Componentry

open List

variable {o : LifecycleOptions} {full : Method} {ms ms' : List Member} {m m' : Member}

/-- The names of the members, except constructors. -/
def memberNames (ms : List Member) : List String := ms.filterMap Member.name?

theorem Member.Kept.name? (hname : full.name = o.hook) (h : Member.Kept o.hook full m m') :
    m'.name? = m.name? := by
  cases h with
  | hook hm _ => rw [Member.name?, Member.name?, hname, hm]
  | _ => rfl

/-- Besides the names that the members had, there is that of a field for every constructor. -/
theorem memberNames_rebuilt (hname : full.name = o.hook) (h : Rebuilt o full ms ms') :
    (memberNames ms').Perm
      (replicate (constructorsOf ms).length o.argsField ++ memberNames ms) := by
  induction h with
  | nil => exact .refl _
  | @kept m m' ms ms' hm _ ih =>
    have hconstructors : constructorsOf (m :: ms) = constructorsOf ms := by cases hm <;> rfl
    rw [hconstructors]
    unfold memberNames at ih ⊢
    rw [filterMap_cons, filterMap_cons, hm.name? hname]
    cases m.name? with
    | none => exact ih
    | some x => exact (ih.cons x).trans perm_middle.symm
  | @constructor k k' args ms ms' hargs _ ih =>
    have hnames : memberNames (.field args :: .constructor k' :: ms') =
        o.argsField :: memberNames ms' := by
      rw [← hargs.1]
      rfl
    rw [hnames]
    exact ih.cons _

/-- The names after the code is moved. A class that has no member of the name of the hook gets
one. -/
theorem memberNames_hooked {c : ClassDecl} {options : LifecycleOptions} {r : HookedClass}
    (h : c.hooked options = .ok r) :
    (memberNames r.decl.members).Perm
      (replicate (constructorsOf c.members).length options.complete.argsField ++
        (memberNames c.members).insert options.complete.hook) := by
  obtain ⟨hook, isNew, full, hhook, hfull, hdecl⟩ := hooked_cases h
  have hname : full.name = options.complete.hook := by
    rw [hfull]
    exact (hookOf_named hhook).1
  have hrest := memberNames_rebuilt hname (rebuilt_hooked options.complete full c.members)
  rw [hdecl]
  obtain ⟨rfl, hnone, -⟩ | ⟨rfl, hsome, -⟩ := hookOf_cases hhook
  · have hfree : options.complete.hook ∉ memberNames c.members := by
      intro hmem
      obtain ⟨m, hm, hmem⟩ := mem_filterMap.1 hmem
      exact find?_eq_none.1 hnone m hm (by simp [hmem])
    rw [insert_of_not_mem hfree, if_pos rfl]
    have hfirst : ∀ ms, memberNames ([.method full] ++ ms) = full.name :: memberNames ms :=
      fun _ => rfl
    rw [hfirst, hname]
    exact (hrest.cons _).trans perm_middle.symm
  · have hmem : options.complete.hook ∈ memberNames c.members := by
      refine mem_filterMap.2 ⟨_, mem_of_find?_eq_some hsome, ?_⟩
      simpa using find?_some hsome
    rw [insert_of_mem hmem]
    exact hrest

/-- **The names of the members after the code is moved**, if they were distinct before: those that
there were, the hook, and for every constructor the field that keeps its parameters. They are
distinct exactly if there is no constructor, or a single one and neither a member nor the hook has
the name of the field. -/
theorem hooked_names {c : ClassDecl} {options : LifecycleOptions} {r : HookedClass}
    (h : c.hooked options = .ok r) (hnames : (memberNames c.members).Nodup) :
    (memberNames r.decl.members).Perm
        (List.replicate (constructorsOf c.members).length options.complete.argsField ++
          (memberNames c.members).insert options.complete.hook) ∧
      ((memberNames r.decl.members).Nodup ↔ (constructorsOf c.members).length = 0 ∨
        (constructorsOf c.members).length = 1 ∧
          options.complete.argsField ∉ options.complete.hook :: memberNames c.members) := by
  have hperm := memberNames_hooked h
  refine ⟨hperm, ?_⟩
  rw [hperm.nodup_iff, nodup_append', nodup_replicate]
  have hinsert := hnames.insert (a := options.complete.hook)
  constructor
  · rintro ⟨hone, -, hdisjoint⟩
    obtain hzero | hone := Nat.le_one_iff_eq_zero_or_eq_one.1 hone
    · exact Or.inl hzero
    · refine Or.inr ⟨hone, fun hmem => ?_⟩
      rw [hone] at hdisjoint
      refine hdisjoint mem_cons_self (mem_insert_iff.2 ?_)
      exact mem_cons.1 hmem
  · rintro (hzero | ⟨hone, hfree⟩)
    · rw [hzero]
      exact ⟨Nat.zero_le 1, hinsert, disjoint_nil_left _⟩
    · rw [hone]
      refine ⟨Nat.le_refl 1, hinsert, singleton_disjoint.2 fun hmem => hfree ?_⟩
      exact mem_cons.2 (mem_insert_iff.1 hmem)

theorem hooked_names_gate : ∃ r, gateClass.hooked {} = .ok r ∧
    memberNames gateClass.members = ["speed", "shared", "onStart"] ∧
    (memberNames r.decl.members).Nodup := by
  obtain ⟨r, hr⟩ : ∃ r, gateClass.hooked {} = .ok r := ⟨_, rfl⟩
  have hnames : (memberNames gateClass.members).Nodup := by decide
  exact ⟨r, hr, rfl, (hooked_names hr hnames).2.2 (Or.inr ⟨rfl, by decide⟩)⟩

/-- The field that keeps the parameters is declared even if a member of the class has its name. -/
theorem hooked_names_clash : ∃ r,
    { gateClass with members := .method (emptyHook "__constructorArgs" gateClass) ::
      gateClass.members }.hooked {} = .ok r ∧
    memberNames r.decl.members =
      ["__constructorArgs", "__constructorArgs", "speed", "shared", "onStart"] := ⟨_, rfl, rfl⟩

end Componentry
