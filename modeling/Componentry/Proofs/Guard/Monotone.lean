import Componentry.Proofs.Guard.Repetition
import Componentry.Proofs.Guard.Unrolling
import Componentry.Reflection

/-!
# What was accepted stays accepted

No guard negates another, so a test over more definitions, or with more keys that may be followed,
accepts at least as much (`Guard.checkWithin_mono`). A key that stands for nothing is passed by no
value, as is one at the bound on the depth; a definition or a smaller depth only adds to that.

Definitions are added while a program is compiled and while its output is registered, and neither
changes one that is there (`Compiler.Grows`, `Reflection.Extends`). So a value that passes a guard
passes it ever after.
-/

namespace Componentry

open List Guard

variable {g : Guard} {v : Value} {key uid : String}

/-- The second way of looking up keys agrees with the first wherever that gives a guard. -/
def LookupExtends (A B : String → Option Guard) : Prop := ∀ key g, A key = some g → B key = some g

/-- By induction on the number of keys that may be followed. -/
theorem Guard.checkWithin_mono {A B : String → Option Guard} (hAB : LookupExtends A B) {n m : Nat}
    (hnm : n ≤ m) (h : g.checkWithin A n v = true) : g.checkWithin B m v = true := by
  induction n generalizing m g v with
  | zero =>
    rw [checkWithin_eq_accepts] at h ⊢
    refine accepts_mono g v ?_ h
    intro key w _ hkey
    cases hkey
  | succ n ih =>
    obtain ⟨k, rfl⟩ : ∃ k, m = k + 1 := ⟨m - 1, by omega⟩
    rw [checkWithin_eq_accepts] at h ⊢
    refine accepts_mono g v ?_ h
    intro key w _ hkey
    cases hbody : A key with
    | none =>
      rw [followWithin_none hbody] at hkey
      cases hkey
    | some body =>
      rw [followWithin_some hbody] at hkey
      rw [followWithin_some (hAB key body hbody)]
      exact ih (Nat.le_of_succ_le_succ hnm) hkey

/-! ## Definitions that are added -/

theorem lookupExtends_of_isPrefix {l l' : List (String × Guard)} (h : l <+: l') :
    LookupExtends (fun key => l.lookup key) fun key => l'.lookup key := by
  obtain ⟨added, rfl⟩ := h
  intro key g hg
  simp [List.lookup_append, show l.lookup key = some g from hg]

namespace Reflection

/-- Guards are only added, at the end. -/
def Extends (r r' : Reflection) : Prop := r.guards <+: r'.guards

theorem Extends.trans {r r₁ r' : Reflection} (h : r.Extends r₁) (h' : r₁.Extends r') :
    r.Extends r' :=
  IsPrefix.trans h h'

theorem addGuard_extends {r r' : Reflection} (h : r.addGuard uid g = .ok r') : r.Extends r' := by
  unfold addGuard at h
  split at h
  · cases h
  · cases h
    exact prefix_append _ _

theorem define_extends {r r' : Reflection} {object : String} {value : MetaValue}
    (h : r.define object key value = .ok r') : r.Extends r' := by
  unfold define at h
  split at h
  · cases h
  · cases h
    exact prefix_refl _

/-- A refused registration changes nothing. -/
theorem attempt_extends {state : Reflection × List ReflectionError}
    {step : Reflection → Except ReflectionError Reflection}
    (hstep : ∀ {r}, step state.1 = .ok r → state.1.Extends r) :
    state.1.Extends (attempt state step).1 := by
  unfold attempt
  cases h : step state.1 with
  | ok r => exact hstep h
  | error e => exact prefix_refl _

theorem foldl_extends {α : Type}
    {step : Reflection × List ReflectionError → α → Reflection × List ReflectionError}
    (hstep : ∀ (state : Reflection × List ReflectionError) (x : α), state.1.Extends (step state x).1)
    (xs : List α) (state : Reflection × List ReflectionError) :
    state.1.Extends (xs.foldl step state).1 := by
  induction xs generalizing state with
  | nil => exact prefix_refl _
  | cons x xs ih => exact (hstep state x).trans (ih _)

theorem loadClass_extends (state : Reflection × List ReflectionError) (c : ClassOutput) :
    state.1.Extends (loadClass state c).1 := by
  refine .trans (foldl_extends ?_ c.guards state) (foldl_extends ?_ c.records _)
  · exact fun state g => attempt_extends addGuard_extends
  · exact fun state rec => attempt_extends define_extends

theorem load_extends (r : Reflection) (o : UnitOutput) : r.Extends (r.load o).1 :=
  foldl_extends loadClass_extends o.classes (r, [])

/-- Whatever is registered later, a value that passes a guard by name still does. -/
theorem Extends.validate {r r' : Reflection} (h : r.Extends r')
    (hv : r.validate uid v = .ok true) : r'.validate uid v = .ok true := by
  have hextends : LookupExtends r.guard? r'.guard? := lookupExtends_of_isPrefix h
  unfold Reflection.validate at hv ⊢
  cases hg : r.guard? uid with
  | none =>
    rw [hg] at hv
    cases hv
  | some g =>
    rw [hg] at hv
    have hcheck : g.check r.guard? v = true := Except.ok.inj hv
    rw [hextends uid g hg]
    exact congrArg Except.ok (checkWithin_mono hextends (Nat.le_refl _) hcheck)

end Reflection

/-! ## Acceptance -/

/-- A value that is accepted, where keys are read by `A` at the depth `d`, is accepted at every
smaller depth and by everything that agrees with `A` where that is defined. So it stays accepted
when more types are compiled, and when more output is registered. -/
theorem acceptance_monotone :
    (∀ {A B : String → Option Guard} {d d' : Nat} {g : Guard} {v : Value}, LookupExtends A B →
      d' ≤ d → g.checkWithin A (maxDepth - d) v = true →
        g.checkWithin B (maxDepth - d') v = true) ∧
    (∀ {graph : Graph} {requests : List GuardRequest} {answers : List GuardAnswer}
      {c c' : Compiler} {g : Guard} {v : Value},
      Yields (GuardRequest.answerAll graph requests) c answers c' →
        g.check c.arena.lookup v = true → g.check c'.arena.lookup v = true) ∧
    (∀ {r : Reflection} {uid : String} {v : Value} (outputs : List UnitOutput),
      r.validate uid v = .ok true →
        (outputs.foldl (fun r o => (r.load o).1) r).validate uid v = .ok true) := by
  refine ⟨?_, ?_, ?_⟩
  · intro A B d d' g v hAB hd h
    exact checkWithin_mono hAB (Nat.sub_le_sub_left hd _) h
  · intro graph requests answers c c' g v hrun h
    have hgrows := GuardRequest.answerAll_grows hrun
    exact checkWithin_mono (lookupExtends_of_isPrefix hgrows.entries) (Nat.le_refl _) h
  · intro r uid v outputs h
    induction outputs generalizing r with
    | nil => exact h
    | cons o outputs ih => exact ih ((r.load_extends o).validate h)

/-- A link that is accepted with one key to follow, after another name has been defined. -/
theorem acceptance_monotone_link :
    checkWithin linkArena.lookup (maxDepth - 255) (.ref "Link") (.record []) = true ∧
    checkWithin (linkArena.define "Label" (.kind "string")).lookup (maxDepth - 0)
      (.ref "Link") (.record []) = true := by
  have hadded : linkArena.entries <+: (linkArena.define "Label" (.kind "string")).entries := by
    rw [Arena.entries_define (by decide)]
    exact prefix_append _ _
  have haccepted : checkWithin linkArena.lookup (maxDepth - 255) (.ref "Link")
      (.record []) = true := by rfl
  exact ⟨haccepted, acceptance_monotone.1 (lookupExtends_of_isPrefix hadded) (Nat.zero_le _) haccepted⟩

end Componentry
