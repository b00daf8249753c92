import Componentry.Types.Fields
import Mathlib.Data.List.Basic

/-!
# The fields of types that contain themselves

Finding the fields of a type follows references, and so does merging the members of an intersection.
A reference that is followed is on the way from then on and not followed again, so fewer are left
each time (`unseen_lt`), and the bound on recursion is never reached (`fieldsWithin_ends`).
-/

namespace Componentry

open List

section Unseen

variable {κ : Type} [DecidableEq κ] {keys seen seen' : List κ} {k : κ}

/-- How many of the keys have not been seen. -/
def unseen (keys seen : List κ) : Nat := keys.countP fun k => decide (k ∉ seen)

theorem unseen_le_length (keys seen : List κ) : unseen keys seen ≤ keys.length :=
  countP_le_length

theorem unseen_mono (keys : List κ) (h : seen ⊆ seen') : unseen keys seen' ≤ unseen keys seen := by
  refine countP_mono_left fun k _ hk => ?_
  rw [decide_eq_true_eq] at hk ⊢
  exact fun hmem => hk (h hmem)

/-- A key that is seen for the first time leaves fewer. -/
theorem unseen_lt (h : seen ⊆ seen') (hkey : k ∈ keys) (hnew : k ∉ seen) (hk : k ∈ seen') :
    unseen keys seen' < unseen keys seen := by
  obtain ⟨before, after, rfl⟩ := append_of_mem hkey
  have hsplit : ∀ s, unseen (before ++ k :: after) s =
      unseen before s + (unseen after s + if k ∈ s then 0 else 1) := by
    intro s
    unfold unseen
    rw [countP_append, countP_cons]
    by_cases hs : k ∈ s <;> simp [hs]
  have hbefore := unseen_mono before h
  have hafter := unseen_mono after h
  rw [hsplit, hsplit, if_pos hk, if_neg hnew]
  omega

end Unseen

/-- The numbers of the references that have a body. -/
def Graph.keys (g : Graph) : List NodeId := g.targets.map (·.1)

theorem Graph.mem_keys {g : Graph} {i : NodeId} {t : Ty} (h : g.target? i = some t) :
    i ∈ g.keys := by
  obtain ⟨e, he, -⟩ := Option.map_eq_some_iff.1 h
  have hid : e.1 = i := by simpa using find?_some he
  exact hid ▸ mem_map_of_mem (mem_of_find?_eq_some he)

theorem Graph.unseen_keys (g : Graph) : unseen g.keys [] < g.targets.length + 1 := by
  have hle := unseen_le_length g.keys []
  rw [Graph.keys, length_map] at hle
  exact Nat.lt_succ_of_le hle

section Ends

variable {g : Graph} {follow : FieldsAt} {merge : MergeAt} {n : Nat}

/-- Neither way to put members together reaches the bound, with fewer than `n` references left. -/
def FieldsEnd (g : Graph) (n : Nat) (follow : FieldsAt) (merge : MergeAt) : Prop :=
  ∀ (t : Ty) {visiting : List NodeId}, unseen g.keys visiting < n →
    follow visiting t ≠ .error .exhausted ∧ ∀ sofar, merge visiting sofar t ≠ .error .exhausted

mutual

theorem fieldsIn_ends (hf : FieldsEnd g n follow merge) :
    FieldsEnd g (n + 1) (fieldsIn g follow) (mergeFields g merge)
  | .reference i d args bases, visiting, hn => by
    simp only [fieldsIn, mergeFields]
    by_cases hi : i ∈ visiting
    · simp [hi]
    · have hcontains : visiting.contains i = false := by simpa using hi
      rw [hcontains]
      cases ht : g.target? i with
      | none => simp
      | some t =>
        have hless := unseen_lt (subset_cons_self i visiting) (g.mem_keys ht) hi
          mem_cons_self
        exact hf t (by omega)
  | .intersection i members, visiting, hn => by
    simp only [fieldsIn, mergeFields]
    split
    · simp
    · have hless := unseen_mono g.keys (subset_cons_self i visiting)
      exact ⟨(collectMembers_ends hf members (by omega) []).1,
        fun sofar => (collectMembers_ends hf members (by omega) sofar).2⟩
  | .object .., _, _ | .primitive .., _, _ | .literal .., _, _ | .union .., _, _
  | .tuple .., _, _ | .array .., _, _ | .deferred .., _, _ | .unrepresentable .., _, _ => by
    simp [fieldsIn, mergeFields]

theorem collectMembers_ends (hf : FieldsEnd g n follow merge) : ∀ (ts : List Ty)
    {visiting : List NodeId}, unseen g.keys visiting < n + 1 → ∀ sofar,
      collectMembers g follow visiting sofar ts ≠ .error .exhausted ∧
        mergeMembers g merge visiting sofar ts ≠ .error .exhausted
  | [], _, _, _ => by simp [collectMembers, mergeMembers]
  | t :: ts, visiting, hn, sofar => by
    rw [collectMembers, mergeMembers]
    obtain ⟨hfields, hmerge⟩ := fieldsIn_ends hf t hn
    have hmerge := hmerge sofar
    constructor
    · cases ht : fieldsIn g follow visiting t with
      | error e =>
        rw [ht] at hfields
        exact hfields
      | ok fields => exact (collectMembers_ends hf ts hn _).1
    · cases ht : mergeFields g merge visiting sofar t with
      | error e =>
        rw [ht] at hmerge
        exact hmerge
      | ok fields => exact (collectMembers_ends hf ts hn _).2

end

/-- By induction on the number of references that may be followed. -/
theorem fieldsWithin_ends (g : Graph) : ∀ n : Nat, FieldsEnd g n (fieldsWithin g n) (mergeWithin g n)
  | 0 => fun _ _ hn => absurd hn (Nat.not_lt_zero _)
  | n + 1 => fieldsIn_ends (fieldsWithin_ends g n)

/-- Finding fields and merging come to an end. -/
theorem fields_end (g : Graph) (t : Ty) :
    fieldsWithin g (g.targets.length + 1) [] t ≠ .error .exhausted ∧
      mergeWithin g (g.targets.length + 1) [] [] t ≠ .error .exhausted := by
  obtain ⟨hfields, hmerge⟩ := fieldsWithin_ends g _ t g.unseen_keys
  exact ⟨hfields, hmerge []⟩

end Ends

end Componentry
