import Componentry.Proofs.Lifecycle.Capture
import Componentry.Proofs.Snippet.Positions

/-!
# Constants in code that is moved into the hook

The statements of a constructor are moved into a block of the hook that starts by declaring the
parameters as constants. The author may set a parameter again, but nobody may set a constant. The
block sets one exactly where the author set a parameter (`hooked_constants`); an inner function or
block that declares the name anew is not counted.
-/

namespace Componentry

open List

variable {sc outer : Scopes} {n : Node} {u : Use}

/-- The scopes around the parts of a node. -/
def Node.inner (sc : Scopes) : Node → Scopes
  | .expr (.arrow _ params body) => body.binds params :: sc
  | .stmt (.block _ ss) => Stmt.declaredBy ss :: sc
  | _ => sc

/-- Somewhere in a node a name is set, and this use of it is the target. -/
inductive Node.Sets : Scopes → Node → Use → Prop where
  | here {sc : Scopes} {loc loc' : Location} {x : String} {value : Expr} :
      Node.Sets sc (.expr (.assign loc (.name loc' x) value)) ⟨x, sc.binder? x⟩
  | inside {sc : Scopes} {n part : Node} {u : Use} (hpart : part ∈ n.parts)
      (h : Node.Sets (n.inner sc) part u) : Node.Sets sc n u

theorem Node.inner_append (sc outer : Scopes) (n : Node) :
    n.inner (sc ++ outer) = n.inner sc ++ outer := by
  unfold Node.inner
  split <;> rfl

/-- Further scopes change nothing but what binds the names. -/
theorem Node.sets_append (sc : Scopes) :
    Node.Sets (sc ++ outer) n u ↔ ∃ v, Node.Sets sc n v ∧ v.within outer = u := by
  constructor
  · intro h
    generalize hsc : sc ++ outer = scopes at h
    induction h generalizing sc with
    | here =>
      rw [← hsc, Scopes.binder?_append]
      exact ⟨_, .here, rfl⟩
    | inside hpart _ ih =>
      obtain ⟨v, hv, hu⟩ := ih _ (by rw [← Node.inner_append, hsc])
      exact ⟨v, .inside hpart hv, hu⟩
  · rintro ⟨v, h, rfl⟩
    induction h with
    | @here sc _ _ x _ =>
      have hname : Use.within outer ⟨x, sc.binder? x⟩ = ⟨x, Scopes.binder? (sc ++ outer) x⟩ := by
        rw [Scopes.binder?_append]
        rfl
      rw [hname]
      exact .here
    | inside hpart _ ih =>
      rw [← Node.inner_append] at ih
      exact .inside hpart ih

/-- A block sets what its statements set. -/
theorem Node.sets_block {loc : Location} {ss : List Stmt} : Node.Sets sc (.stmt (.block loc ss)) u ↔
    ∃ s ∈ ss, Node.Sets (Stmt.declaredBy ss :: sc) (.stmt s) u := by
  constructor
  · intro h
    cases h with
    | inside hpart h =>
      obtain ⟨s, hs, rfl⟩ := mem_map.1 hpart
      exact ⟨s, hs, h⟩
  · rintro ⟨s, hs, h⟩
    exact .inside (mem_map_of_mem hs) h

theorem FirstSuper.mem_rest {body rest : List Stmt} {call : Option Stmt} {s : Stmt}
    (h : FirstSuper body call rest) (hs : s ∈ body) (hno : s.isSuperCall = false) : s ∈ rest := by
  cases h with
  | absent _ => exact hs
  | @found _ _ call _ hcall =>
    have hne : s ≠ call := by
      rintro rfl
      rw [hno] at hcall
      cases hcall
    simpa [hne] using hs

/-- Taking the parameters out declares them and sets nothing. -/
theorem not_sets_loadArgs {field : String} {k : Constructor} {s : Stmt} (hs : s ∈ loadArgs field k) :
    ¬ Node.Sets sc (.stmt s) u := by
  obtain ⟨-, h⟩ | ⟨-, _, h, loc, rfl⟩ := loadArgs_cases field k
  · rw [h] at hs
    cases hs
  · rw [h, mem_singleton] at hs
    rintro hsets
    have hself : ¬ Node.Sets sc (.expr (.self .nowhere)) u := by
      intro hsets
      cases hsets with
      | inside hpart _ => cases hpart
    subst hs
    cases hsets with
    | inside hpart hsets =>
      cases mem_singleton.1 hpart
      cases hsets with
      | inside hpart hsets =>
        cases mem_singleton.1 hpart
        exact hself hsets

/-- **Constants that the hook sets.** The moved statements of a constructor stand in a block of the
hook, behind the declaration of the parameters as constants. In the hook, the block has the number 1
and in the constructor the scope has the number 0. A name that is bound there or further inside is
set in the block exactly if a moved statement sets it in the constructor. So the block sets a
constant if and only if the author sets a parameter. -/
theorem hooked_constants {c : ClassDecl} {options : LifecycleOptions} {r : HookedClass}
    {k : Constructor} (h : c.hooked options = .ok r) (hk : lastConstructor c.members = some k) :
    ∃ full ∈ instanceMethods options.complete.hook r.decl.members, ∃ call unpack rest,
      FirstSuper k.body call rest ∧
      (k.params = [] ∧ unpack = [] ∨
        k.params ≠ [] ∧ ∃ s, unpack = [s] ∧ s.Unpacks options.complete.argsField k.params) ∧
      .block k.loc (unpack ++ rest) ∈ full.body ∧
      ∀ (x : String) (n : Nat),
        Node.Sets [full.scope] (.stmt (.block k.loc (unpack ++ rest))) ⟨x, some (n + 1)⟩ ↔
          ∃ s ∈ rest, Node.Sets [k.scope] (.stmt s) ⟨x, some n⟩ := by
  obtain ⟨hook, isNew, full, hhook, hfull, hdecl⟩ := hooked_cases h
  obtain ⟨hmem, -⟩ := hook_hooked hhook hfull rfl
  have hsuper := firstSuper_splitSuper k.body
  have hscope : Stmt.declaredBy (loadArgs options.complete.argsField k ++ (splitSuper k.body).2) =
      k.scope := by
    rw [Stmt.declaredBy_append, declaredBy_loadArgs, hsuper.declaredBy]
    rfl
  refine ⟨full, by rw [hdecl]; exact hmem, _, _, _, hsuper, loadArgs_cases _ k, ?_, ?_⟩
  · rw [hfull, hk]
    simp [Constructor.moved]
  · intro x n
    rw [Node.sets_block, hscope]
    constructor
    · rintro ⟨s, hs, hsets⟩
      obtain hs | hs := mem_append.1 hs
      · exact absurd hsets (not_sets_loadArgs hs)
      · obtain ⟨v, hsets, hwithin⟩ := (Node.sets_append [k.scope]).1 hsets
        have hmoved := Use.moved_within full.scope v
        rw [hwithin] at hmoved
        cases hmoved with
        | bound => exact ⟨s, hs, hsets⟩
    · rintro ⟨s, hs, hsets⟩
      exact ⟨s, mem_append_right _ hs, (Node.sets_append [k.scope]).2 ⟨_, hsets, rfl⟩⟩

/-- A component whose constructor sets its parameter. -/
def meterClass : ClassDecl :=
  { gateClass with
    members := [.constructor
      { loc := .nowhere, params := [.mk .nowhere none "count" false none]
        body := [.run .nowhere (.assign .nowhere (.name .nowhere "count") (.self .nowhere))] }] }

theorem hooked_constants_meter : ∃ r, meterClass.hooked {} = .ok r ∧
    ∃ full ∈ instanceMethods "onStart" r.decl.members, ∃ s rest,
      s.Unpacks "__constructorArgs" [.mk .nowhere none "count" false none] ∧
      .block .nowhere (s :: rest) ∈ full.body ∧
      Node.Sets [full.scope] (.stmt (.block .nowhere (s :: rest))) ⟨"count", some 1⟩ := by
  obtain ⟨r, hr⟩ : ∃ r, meterClass.hooked {} = .ok r := ⟨_, rfl⟩
  obtain ⟨full, hfull, call, unpack, rest, hsuper, hunpack, hblock, hsets⟩ :=
    hooked_constants hr rfl
  obtain ⟨hparams, -⟩ | ⟨-, s, rfl, hunpacks⟩ := hunpack
  · cases hparams
  have hmem := hsuper.mem_rest mem_cons_self rfl
  have hcount := (hsets "count" 0).2 ⟨_, hmem, .inside mem_cons_self .here⟩
  exact ⟨r, hr, full, hfull, s, rest, hunpacks, hblock, hcount⟩

end Componentry
