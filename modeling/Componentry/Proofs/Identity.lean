import Componentry.Identity
import Mathlib

/-!
# Identifiers are kept and are distinct

A registry only ever grows: `Registry.uid` gives a declaration the identifier it has, or puts a new
pair at the end. So the registry before a step is a prefix of the one after it, and an identifier
once given is given for good (`Registry.Extends`).

The search for a free identifier tries one candidate more than there are identifiers, and the
candidates are pairwise different, so it ends at a free one (`isTaken_freeId`). Hence no two
declarations share an identifier in a registry that started empty (`Registry.Distinct`).
-/

namespace Componentry.Registry

open List

variable {r r' : Registry} {d : Declaration} {u : String}

/-- The identifier that a declaration has. -/
def given? (r : Registry) (d : Declaration) : Option String := r.assigned.lookup d.id

/-- Everything that `r` has given, `r'` has given in the same order before all else. -/
def Extends (r r' : Registry) : Prop := r.assigned <+: r'.assigned

/-- Each declaration occurs once, and so does each identifier. -/
structure Distinct (r : Registry) : Prop where
  decls : (r.assigned.map (·.1)).Nodup
  uids : (r.assigned.map (·.2)).Nodup

theorem mem_of_given (h : r.given? d = some u) : (d.id, u) ∈ r.assigned := by
  obtain ⟨l₁, l₂, hl, -⟩ := lookup_eq_some_iff.1 h
  rw [hl]
  simp

/-! ## Growth -/

theorem Extends.refl (r : Registry) : Extends r r := prefix_refl _

theorem Extends.trans {s t : Registry} (h1 : Extends r s) (h2 : Extends s t) : Extends r t :=
  IsPrefix.trans h1 h2

/-- An identifier that is given stays. -/
theorem Extends.given (h : Extends r r') (hu : r.given? d = some u) : r'.given? d = some u := by
  obtain ⟨more, hmore⟩ := h
  unfold given? at hu ⊢
  rw [← hmore, List.lookup_append, hu]
  rfl

/-- What a successful request for an identifier does: it finds the one that is given, or gives a
new one to a declaration with a name. -/
theorem uid_cases (h : r.uid d = .ok (u, r')) : (r.given? d = some u ∧ r' = r) ∨
      (r.given? d = none ∧ d.name ≠ "" ∧ u = r.freeId (r.style.render d.pathId) ∧
        r' = { r with assigned := r.assigned ++ [(d.id, u)] }) := by
  unfold uid at h
  cases hd : r.assigned.lookup d.id with
  | some v =>
    simp only [hd, Except.ok.injEq, Prod.mk.injEq] at h
    obtain ⟨rfl, rfl⟩ := h
    exact Or.inl ⟨hd, rfl⟩
  | none =>
    simp only [hd] at h
    by_cases hn : d.name = ""
    · simp [hn] at h
    · simp only [hn, if_false, Except.ok.injEq, Prod.mk.injEq] at h
      obtain ⟨rfl, rfl⟩ := h
      exact Or.inr ⟨hd, hn, rfl, rfl⟩

theorem uid_extends (h : r.uid d = .ok (u, r')) : Extends r r' := by
  obtain ⟨-, rfl⟩ | ⟨-, -, -, rfl⟩ := uid_cases h
  · exact Extends.refl r'
  · exact prefix_append _ _

/-- The identifier that is returned is the one that is given. -/
theorem uid_given (h : r.uid d = .ok (u, r')) : r'.given? d = some u := by
  obtain ⟨hu, rfl⟩ | ⟨hd, -, -, rfl⟩ := uid_cases h
  · exact hu
  · unfold given? at hd ⊢
    rw [List.lookup_append, hd]
    simp

/-! ## Free identifiers -/

theorem isTaken_iff : r.isTaken u = true ↔ u ∈ r.assigned.map (·.2) := by
  simp [isTaken]

theorem candidate_injective (base : String) {m n : Nat}
    (h : base ++ "#" ++ toString m = base ++ "#" ++ toString n) : m = n := by
  have hl : (toString m).toList = (toString n).toList := by
    have := congrArg String.toList h
    simpa [String.toList_append] using this
  have hm := Nat.ofDigitChars_ten_toDigits (n := m)
  have hn := Nat.ofDigitChars_ten_toDigits (n := n)
  rw [Nat.toString_eq_ofList_toDigits, Nat.toString_eq_ofList_toDigits] at hl
  simp only [String.toList_ofList] at hl
  rw [← hm, ← hn, hl]

/-- If the search ends at a taken identifier, every candidate up to there is taken. -/
theorem isTaken_of_firstFree (r : Registry) (base : String) :
    ∀ fuel n : Nat, r.isTaken (r.firstFree base fuel n) = true →
      ∀ k, k ≤ fuel → r.isTaken (base ++ "#" ++ toString (n + k)) = true := by
  intro fuel
  induction fuel with
  | zero =>
    intro n h k hk
    obtain rfl : k = 0 := by omega
    exact h
  | succ fuel ih =>
    intro n h k hk
    rw [firstFree] at h
    by_cases ht : r.isTaken (base ++ "#" ++ toString n) = true
    · simp only [ht, if_true] at h
      cases k with
      | zero => exact ht
      | succ k =>
        have := ih (n + 1) h k (by omega)
        rwa [show n + 1 + k = n + (k + 1) by omega] at this
    · simp only [ht] at h
      exact absurd h ht

/-- There are more candidates than identifiers, so the one found is free. -/
theorem isTaken_firstFree (r : Registry) (base : String) (n : Nat) :
    r.isTaken (r.firstFree base r.size n) = false := by
  rw [Bool.eq_false_iff]
  intro h
  have hall := isTaken_of_firstFree r base r.size n h
  let candidates := (List.range (r.size + 1)).map fun k => base ++ "#" ++ toString (n + k)
  have hnodup : candidates.Nodup := by
    refine Nodup.map_on ?_ nodup_range
    intro a _ b _ hab
    have := candidate_injective base hab
    omega
  have hsub : candidates ⊆ r.assigned.map (·.2) := by
    intro u hu
    obtain ⟨k, hk, rfl⟩ := mem_map.1 hu
    exact isTaken_iff.1 (hall k (by have := mem_range.1 hk; omega))
  have hlen := (hnodup.subperm hsub).length_le
  simp only [candidates, length_map, length_range, size] at hlen
  omega

theorem isTaken_freeId (r : Registry) (base : String) : r.isTaken (r.freeId base) = false := by
  unfold freeId
  by_cases h : r.isTaken base = true
  · simp only [h, if_true]
    exact isTaken_firstFree r base 2
  · simp only [h]
    simpa using h

/-! ## Distinctness -/

theorem distinct_empty (style : IdStyle) : (empty style).Distinct := ⟨nodup_nil, nodup_nil⟩

/-- A declaration without an identifier may be given a free one. -/
theorem Distinct.give (hr : r.Distinct) (hd : r.given? d = none) (base : String) :
    Distinct { r with assigned := r.assigned ++ [(d.id, r.freeId base)] } := by
  have hfree := isTaken_freeId r base
  have hdecl : d.id ∉ r.assigned.map (·.1) := by
    intro hmem
    obtain ⟨p, hp, hpd⟩ := mem_map.1 hmem
    have := lookup_eq_none_iff.1 hd p hp
    simp [hpd] at this
  have huid : r.freeId base ∉ r.assigned.map (·.2) := by
    intro hmem
    rw [isTaken_iff.2 hmem] at hfree
    exact Bool.noConfusion hfree
  refine ⟨?_, ?_⟩
  · simpa using hr.decls.concat hdecl
  · simpa using hr.uids.concat huid

theorem Distinct.uid (hr : r.Distinct) (h : r.uid d = .ok (u, r')) : r'.Distinct := by
  obtain ⟨-, rfl⟩ | ⟨hd, -, rfl, rfl⟩ := uid_cases h
  · exact hr
  · exact hr.give hd _

/-- Two declarations with the same identifier have the same number. -/
theorem Distinct.eq_of_given (hr : r.Distinct) {e : Declaration} (hd : r.given? d = some u)
    (he : r.given? e = some u) : d.id = e.id := by
  have := inj_on_of_nodup_map hr.uids (mem_of_given hd) (mem_of_given he) rfl
  exact congrArg Prod.fst this

end Componentry.Registry
