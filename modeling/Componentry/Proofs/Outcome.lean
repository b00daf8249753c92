import Componentry.Metadata.Session
import Mathlib

/-!
# Outcomes of steps

Compiling and the work on a program are steps over a state that may fail and may have no result at
all. `Yields m s a s'` says that the step `m` succeeds from `s`: it gives `a` and leaves `s'`.
`Fails m s e s'` says that it fails with `e`, and what it leaves then; `Stops` covers this and that
there is no result. The lemmas take a step apart along the operations it is built from; none of them
looks at the state.

Resolving cannot fail, so its steps have the simpler outcome `Gives`.
-/

namespace Componentry

open Work

variable {σ ε α β : Type}

/-- A computation that is known to succeed with some property of its value. -/
theorem exists_ok {x : Except ε α} {p : α → Bool} (h : x.toOption.any p = true) :
    ∃ a, x = .ok a ∧ p a = true := by
  cases x with
  | error _ => cases h
  | ok a => exact ⟨a, rfl, h⟩

/-! ## Steps that may fail -/

section

variable {m : ExceptT ε (StateT σ Option) α} {f : α → ExceptT ε (StateT σ Option) β} {s s₁ s' t : σ}
  {a : α} {b : β} {e : ε} {u : PUnit} {o : Option (ε × σ)}

/-- The step succeeds from `s`: it gives `a` and leaves `s'`. -/
def Yields (m : ExceptT ε (StateT σ Option) α) (s : σ) (a : α) (s' : σ) : Prop :=
  m.run.run s = some (.ok a, s')

theorem yields_pure {b : α} :
    Yields (pure a : ExceptT ε (StateT σ Option) α) s b s' ↔ a = b ∧ s = s' := by
  simp [Yields]

/-- After a first part that succeeds, a sequence runs on as its second part. -/
theorem Yields.run_bind (h : Yields m s a s₁) : (m >>= f).run.run s = (f a).run.run s₁ := by
  unfold Yields at h
  simp only [ExceptT.run_bind, StateT.run_bind, h]
  rfl

/-- A sequence succeeds exactly if its parts do, one after the other. -/
theorem yields_bind : Yields (m >>= f) s b s' ↔ ∃ a s₁, Yields m s a s₁ ∧ Yields (f a) s₁ b s' := by
  unfold Yields
  rw [ExceptT.run_bind, StateT.run_bind]
  rcases m.run.run s with _ | ⟨_ | a, s₁⟩ <;> simp

/-- A step whose value is only turned into another one. -/
theorem yields_map {f : α → β} :
    Yields (m >>= fun a => pure (f a)) s b s' ↔ ∃ a, Yields m s a s' ∧ f a = b := by
  simp only [yields_bind, yields_pure]
  grind

theorem yields_get : Yields (get : ExceptT ε (StateT σ Option) σ) s t s' ↔ s = t ∧ s = s' := by
  show some (Except.ok s, s) = _ ↔ _
  simp

theorem yields_set : Yields (set t : ExceptT ε (StateT σ Option) PUnit) s u s' ↔ t = s' := by
  show some (Except.ok u, t) = _ ↔ _
  simp

theorem yields_modify {f : σ → σ} :
    Yields (modify f : ExceptT ε (StateT σ Option) PUnit) s u s' ↔ f s = s' := by
  show some (Except.ok u, f s) = _ ↔ _
  simp

theorem not_yields_throw : ¬ Yields (throw e : ExceptT ε (StateT σ Option) α) s a s' := by
  intro h
  cases h

/-- A step that succeeds does so in one way. -/
theorem Yields.unique {b : α} (h1 : Yields m s a s₁) (h2 : Yields m s b s') : a = b ∧ s₁ = s' := by
  unfold Yields at h1 h2
  rw [h1] at h2
  cases h2
  exact ⟨rfl, rfl⟩

/-- The step fails from `s` with `e`, and leaves `s'`. -/
def Fails (m : ExceptT ε (StateT σ Option) α) (s : σ) (e : ε) (s' : σ) : Prop :=
  m.run.run s = some (.error e, s')

/-- The step has no value from `s`: it fails with an error and leaves a state, or it has no result at
all. -/
def Stops (m : ExceptT ε (StateT σ Option) α) (s : σ) (o : Option (ε × σ)) : Prop :=
  m.run.run s = o.map fun p => (.error p.1, p.2)

theorem Yields.not_stops (h : Yields m s a s₁) : ¬ Stops m s o := by
  intro hstops
  unfold Stops at hstops
  rw [h] at hstops
  cases o <;> cases hstops

theorem not_stops_pure : ¬ Stops (pure a : ExceptT ε (StateT σ Option) α) s o :=
  Yields.not_stops (yields_pure.2 ⟨rfl, rfl⟩)

/-- A sequence stops in its first part, or in its second after the first. -/
theorem Stops.of_bind (h : Stops (m >>= f) s o) :
    Stops m s o ∨ ∃ a s₁, Yields m s a s₁ ∧ Stops (f a) s₁ o := by
  unfold Stops Yields at *
  rw [ExceptT.run_bind, StateT.run_bind] at h
  rcases hm : m.run.run s with _ | ⟨_ | a, s₁⟩
  · exact Or.inl (by simpa [hm] using h)
  · exact Or.inl (by simpa [hm] using h)
  · exact Or.inr ⟨a, s₁, rfl, by simpa [hm] using h⟩

/-- A step whose value is only turned into another one stops as it does. -/
theorem stops_map {f : α → β} : Stops (m >>= fun a => pure (f a)) s o ↔ Stops m s o := by
  constructor
  · intro h
    obtain h | ⟨a, s₁, -, h⟩ := h.of_bind
    · exact h
    · exact absurd h not_stops_pure
  · intro h
    unfold Stops at h ⊢
    simp only [ExceptT.run_bind, StateT.run_bind, h]
    cases o <;> rfl

theorem fails_map {f : α → β} :
    Fails (m >>= fun a => pure (f a)) s e s' ↔ Fails m s e s' := stops_map (o := some (e, s'))

/-- The step has a result in every state, a value or a failure. -/
def Settles (m : ExceptT ε (StateT σ Option) α) : Prop :=
  ∀ s, ∃ result s', m.run.run s = some (result, s')

theorem settles_pure (a : α) : Settles (pure a : ExceptT ε (StateT σ Option) α) :=
  fun s => ⟨.ok a, s, rfl⟩

theorem settles_throw (e : ε) : Settles (throw e : ExceptT ε (StateT σ Option) α) :=
  fun s => ⟨.error e, s, rfl⟩

theorem settles_get : Settles (get : ExceptT ε (StateT σ Option) σ) := fun s => ⟨.ok s, s, rfl⟩

theorem settles_set (t : σ) : Settles (set t : ExceptT ε (StateT σ Option) PUnit) :=
  fun _ => ⟨.ok ⟨⟩, t, rfl⟩

theorem Settles.bind (hm : Settles m) (hf : ∀ a, Settles (f a)) : Settles (m >>= f) := by
  intro s
  obtain ⟨result, s₁, hrun⟩ := hm s
  cases result with
  | error e =>
    refine ⟨.error e, s₁, ?_⟩
    simp only [ExceptT.run_bind, StateT.run_bind, hrun]
    rfl
  | ok a =>
    have hyields : Yields m s a s₁ := hrun
    obtain ⟨result, s₂, hrun₂⟩ := hf a s₁
    exact ⟨result, s₂, hyields.run_bind.trans hrun₂⟩

end

/-! ## Steps that cannot fail -/

section

variable {m : StateT σ Option α} {f : α → StateT σ Option β} {s s₁ s' t : σ} {a : α} {b : β}

/-- The step has a result from `s`: it gives `a` and leaves `s'`. -/
def Gives (m : StateT σ Option α) (s : σ) (a : α) (s' : σ) : Prop := m.run s = some (a, s')

theorem Gives.unique {b : α} (h₁ : Gives m s a s₁) (h₂ : Gives m s b s') : a = b ∧ s₁ = s' := by
  unfold Gives at h₁ h₂
  rw [h₁] at h₂
  cases h₂
  exact ⟨rfl, rfl⟩

theorem gives_pure {b : α} : Gives (pure a : StateT σ Option α) s b s' ↔ a = b ∧ s = s' := by
  simp [Gives]

theorem gives_bind : Gives (m >>= f) s b s' ↔ ∃ a s₁, Gives m s a s₁ ∧ Gives (f a) s₁ b s' := by
  unfold Gives
  rw [StateT.run_bind]
  rcases m.run s with _ | ⟨a, s₁⟩ <;> simp

theorem gives_get : Gives (get : StateT σ Option σ) s t s' ↔ s = t ∧ s = s' := by
  simp [Gives]

theorem gives_modify {f : σ → σ} {u : PUnit} :
    Gives (modify f : StateT σ Option PUnit) s u s' ↔ f s = s' := by
  simp [Gives]

theorem not_gives_failure : ¬ Gives (failure : StateT σ Option α) s a s' := by
  intro h
  cases h

end

/-! ## Parts of the work on a program -/

variable {s s' : Session} {a : α}

theorem Work.run_resolve (r : Resolve α) (s : Session) : (resolve r).run.run s =
      (r.run s.resolution).map fun p => (.ok p.1, { s with resolution := p.2 }) := by
  show Option.bind (r.run s.resolution) _ = _
  cases r.run s.resolution <;> rfl

theorem yields_resolve {r : Resolve α} : Yields (resolve r) s a s' ↔
      ∃ resolution, Gives r s.resolution a resolution ∧ s' = { s with resolution } := by
  unfold Yields Gives
  rw [run_resolve, Option.map_eq_some_iff]
  constructor
  · rintro ⟨⟨result, resolution⟩, hr, h⟩
    cases h
    exact ⟨resolution, hr, rfl⟩
  · rintro ⟨resolution, hr, rfl⟩
    exact ⟨(a, resolution), hr, rfl⟩

theorem Work.run_compile (c : Graph → Compile α) (s : Session) : (compile c).run.run s =
      ((c s.resolution.graph).run.run s.compiler).map fun p =>
        (p.1, { s with compiler := p.2 }) := by
  show Option.bind ((c s.resolution.graph).run.run s.compiler) _ = _
  cases (c s.resolution.graph).run.run s.compiler <;> rfl

theorem yields_compile {c : Graph → Compile α} : Yields (compile c) s a s' ↔
      ∃ compiler, Yields (c s.resolution.graph) s.compiler a compiler ∧
        s' = { s with compiler } := by
  unfold Yields
  rw [run_compile, Option.map_eq_some_iff]
  constructor
  · rintro ⟨⟨result, compiler⟩, hc, h⟩
    cases h
    exact ⟨compiler, hc, rfl⟩
  · rintro ⟨compiler, hc, rfl⟩
    exact ⟨(.ok a, compiler), hc, rfl⟩

theorem yields_ofExcept {e : Except Diagnostic α} :
    Yields (ofExcept e) s a s' ↔ e = .ok a ∧ s = s' := by
  constructor
  · intro h
    cases h
    exact ⟨rfl, rfl⟩
  · rintro ⟨rfl, rfl⟩
    rfl

theorem Work.run_detail (f : Diagnostic → Diagnostic) (w : Work α) (s : Session) :
    (detail f w).run.run s = (w.run.run s).map fun p => (p.1.mapError f, p.2) := by
  show (do let p ← w.run.run s; _) = _
  cases w.run.run s <;> rfl

/-- More detail for a failure changes nothing about success. -/
theorem yields_detail {f : Diagnostic → Diagnostic} {w : Work α} :
    Yields (detail f w) s a s' ↔ Yields w s a s' := by
  unfold Yields
  rw [run_detail]
  cases w.run.run s with
  | none => simp
  | some p =>
    obtain ⟨r, s₁⟩ := p
    cases r with
    | error d | ok b => simp [Except.mapError]

theorem settles_ofExcept (e : Except Diagnostic α) : Settles (ofExcept e) :=
  fun s => ⟨e, s, rfl⟩

theorem Settles.compile {m : Graph → Compile α} (hm : ∀ g, Settles (m g)) :
    Settles (compile m) := by
  intro s
  obtain ⟨result, compiler, hrun⟩ := hm s.resolution.graph s.compiler
  exact ⟨result, { s with compiler }, by rw [run_compile, hrun]; rfl⟩

theorem Settles.detail {w : Work α} (hw : Settles w) (f : Diagnostic → Diagnostic) :
    Settles (detail f w) := by
  intro s
  obtain ⟨result, s₁, hrun⟩ := hw s
  exact ⟨result.mapError f, s₁, by rw [run_detail, hrun]; rfl⟩

end Componentry
