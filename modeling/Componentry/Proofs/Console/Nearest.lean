import Componentry.Console.Suggest
import Mathlib.Order.Bounds.Defs

/-!
# The nearest names

An edit inserts, removes or replaces one item, anywhere in a list. The distance that the rows give is
the least number of edits from one list to the other (`editDistance_isLeast`).

A row belongs to a beginning of the first list, and its entries to the beginnings of the second. Read
from its end, a beginning is a list that grows in front, and on such lists the distance is a plain
recursion (`distance`), which the rows follow entry by entry (`editDistance_eq`). No sequence of edits
is shorter, because one edit changes that distance to any third list by at most one (`Edit.lipschitz`).
-/

namespace Componentry

open List

variable {α : Type} {xs ys zs : List α} {n : Nat}

/-! ## Edits -/

/-- One edit of a list. -/
inductive Edit : List α → List α → Prop where
  | insert (before after : List α) (x : α) : Edit (before ++ after) (before ++ x :: after)
  | delete (before after : List α) (x : α) : Edit (before ++ x :: after) (before ++ after)
  | substitute (before after : List α) (x y : α) :
      Edit (before ++ x :: after) (before ++ y :: after)

/-- So many edits one after another. -/
inductive Edits : Nat → List α → List α → Prop where
  | done (xs : List α) : Edits 0 xs xs
  | step {n : Nat} {xs ys zs : List α} (h : Edit xs ys) (rest : Edits n ys zs) :
      Edits (n + 1) xs zs

theorem Edit.cons (a : α) (h : Edit xs ys) : Edit (a :: xs) (a :: ys) := by
  cases h with
  | insert before after x => exact .insert (a :: before) after x
  | delete before after x => exact .delete (a :: before) after x
  | substitute before after x y => exact .substitute (a :: before) after x y

theorem Edit.reverse (h : Edit xs ys) : Edit xs.reverse ys.reverse := by
  cases h with
  | insert before after x => simpa using Edit.insert after.reverse before.reverse x
  | delete before after x => simpa using Edit.delete after.reverse before.reverse x
  | substitute before after x y => simpa using Edit.substitute after.reverse before.reverse x y

theorem Edits.cons (a : α) (h : Edits n xs ys) : Edits n (a :: xs) (a :: ys) := by
  induction h with
  | done xs => exact .done _
  | step h _ ih => exact .step (h.cons a) ih

theorem Edits.reverse (h : Edits n xs ys) : Edits n xs.reverse ys.reverse := by
  induction h with
  | done xs => exact .done _
  | step h _ ih => exact .step h.reverse ih

theorem edits_reverse : Edits n xs.reverse ys.reverse ↔ Edits n xs ys := by
  refine ⟨fun h => ?_, Edits.reverse⟩
  simpa using h.reverse

/-! ## The distance as a recursion -/

section Distance

variable [BEq α]

/-- The distance of two lists, found from their first items. -/
def distance : List α → List α → Nat
  | [], ys => ys.length
  | x :: xs, [] => (x :: xs).length
  | x :: xs, y :: ys => min (distance xs (y :: ys) + 1)
      (min (distance (x :: xs) ys + 1) (distance xs ys + if x == y then 0 else 1))
termination_by xs ys => xs.length + ys.length

theorem distance_nil (xs : List α) : distance xs [] = xs.length := by
  cases xs <;> rw [distance]

/-- The distances to `q` with more and more of the items put in front. -/
def distances (p q : List α) : List α → List Nat
  | [] => []
  | y :: ys => distance p (y :: q) :: distances p (y :: q) ys

theorem fill_distances (x : α) (p q ys : List α) :
    EditDistance.fill x (distance (x :: p) q) (distance p q) ys (distances p q ys) =
      distance (x :: p) q :: distances (x :: p) q ys := by
  induction ys generalizing q with
  | nil => rfl
  | cons y ys ih =>
    have hnext : min (distance p (y :: q) + 1)
        (min (distance (x :: p) q + 1) (distance p q + if x == y then 0 else 1)) =
          distance (x :: p) (y :: q) := by rw [distance]
    rw [distances, distances, EditDistance.fill, hnext, ih]

/-- After the items of `xs` the row holds the distances of all of them, the last one in front. -/
theorem foldl_nextRow (xs p ys : List α) :
    xs.foldl (EditDistance.nextRow ys) (distance p [] :: distances p [] ys) =
      distance (xs.reverse ++ p) [] :: distances (xs.reverse ++ p) [] ys := by
  induction xs generalizing p with
  | nil => rfl
  | cons x xs ih =>
    have hfirst : distance p [] + 1 = distance (x :: p) [] := by
      rw [distance_nil, distance_nil, length_cons]
    rw [foldl_cons, EditDistance.nextRow, hfirst, fill_distances, ih, reverse_cons, append_assoc,
      singleton_append]

theorem distances_nil (q ys : List α) :
    distances [] q ys = List.range' (q.length + 1) ys.length := by
  induction ys generalizing q with
  | nil => rfl
  | cons y ys ih => rw [distances, ih, distance, length_cons, length_cons, range'_succ]

theorem getLast_distances (p q ys : List α) :
    (distance p q :: distances p q ys).getLast? = some (distance p (ys.reverse ++ q)) := by
  induction ys generalizing q with
  | nil => rfl
  | cons y ys ih =>
    rw [distances, getLast?_cons_cons, ih, reverse_cons, append_assoc, singleton_append]

theorem editDistance_eq (xs ys : List α) : editDistance xs ys = distance xs.reverse ys.reverse := by
  have hfirst : List.range (ys.length + 1) = distance ([] : List α) [] :: distances [] [] ys := by
    rw [distances_nil, distance, range_eq_range', range'_succ]
    rfl
  rw [editDistance, EditDistance.lastRow, hfirst, foldl_nextRow, getLast_distances, append_nil,
    append_nil, Option.getD_some]

/-! ## One edit -/

/-- The first list is no farther from any list than the second, by one edit. -/
def Within (xs ys : List α) : Prop := ∀ zs, distance xs zs ≤ distance ys zs + 1

theorem distance_cons_right (xs ys : List α) (y : α) :
    distance xs (y :: ys) ≤ distance xs ys + 1 := by
  cases xs with
  | nil => simp [distance]
  | cons x xs =>
    rw [distance]
    omega

theorem within_delete (x : α) (xs : List α) : Within (x :: xs) xs := by
  intro zs
  cases zs with
  | nil => simp [distance_nil]
  | cons z zs =>
    rw [distance]
    omega

theorem within_insert (x : α) (xs : List α) : Within xs (x :: xs) := by
  intro zs
  induction zs with
  | nil =>
    rw [distance_nil, distance_nil, length_cons]
    omega
  | cons z zs ih =>
    have hright := distance_cons_right xs zs z
    rw [distance]
    omega

theorem within_substitute (x y : α) (xs : List α) : Within (x :: xs) (y :: xs) := by
  intro zs
  induction zs with
  | nil => simp [distance_nil]
  | cons z zs ih =>
    rw [distance, distance]
    split <;> split <;> omega

theorem Within.cons (a : α) (h : Within xs ys) : Within (a :: xs) (a :: ys) := by
  intro zs
  induction zs with
  | nil =>
    have hnil := h []
    rw [distance_nil, distance_nil] at hnil ⊢
    rw [length_cons, length_cons]
    omega
  | cons z zs ih =>
    have hsame := h (z :: zs)
    have hrest := h zs
    rw [distance, distance]
    omega

theorem Within.append (before : List α) (h : Within xs ys) :
    Within (before ++ xs) (before ++ ys) := by
  induction before with
  | nil => exact h
  | cons a before ih => exact ih.cons a

theorem Edit.lipschitz (h : Edit xs ys) : Within xs ys := by
  cases h with
  | insert before after x => exact (within_insert x after).append before
  | delete before after x => exact (within_delete x after).append before
  | substitute before after x y => exact (within_substitute x y after).append before

end Distance

/-! ## The least number of edits -/

section Least

variable [BEq α] [LawfulBEq α]

/-- There are as many edits as the distance says. -/
theorem edits_distance (xs ys : List α) : Edits (distance xs ys) xs ys := by
  fun_induction distance xs ys with
  | case1 ys =>
    induction ys with
    | nil => exact .done []
    | cons y ys ih => exact .step (.insert [] [] y) (ih.cons y)
  | case2 x xs =>
    induction x :: xs with
    | nil => exact .done []
    | cons x xs ih => exact .step (.delete [] xs x) ih
  | case3 x xs y ys hdelete hinsert hboth =>
    have hd : Edits (distance xs (y :: ys) + 1) (x :: xs) (y :: ys) :=
      .step (.delete [] xs x) hdelete
    have hi : Edits (distance (x :: xs) ys + 1) (x :: xs) (y :: ys) :=
      .step (.insert [] (x :: xs) y) (hinsert.cons y)
    have hs : Edits (distance xs ys + if x == y then 0 else 1) (x :: xs) (y :: ys) := by
      split
      · rename_i heq
        rw [eq_of_beq heq]
        exact hboth.cons y
      · exact .step (.substitute [] xs x y) (hboth.cons y)
    grind

theorem distance_self (xs : List α) : distance xs xs = 0 := by
  induction xs with
  | nil => rw [distance, length_nil]
  | cons x xs ih => simp [distance, ih]

/-- By induction on the edits, from the last one backwards. -/
theorem Edits.distance_le (h : Edits n xs ys) : distance xs ys ≤ n := by
  induction h with
  | done xs => exact Nat.le_of_eq (distance_self xs)
  | step hedit _ ih => exact Nat.le_trans (hedit.lipschitz _) (Nat.add_le_add_right ih 1)

theorem editDistance_isLeast (xs ys : List α) :
    IsLeast {n | Edits n xs ys} (editDistance xs ys) := by
  rw [editDistance_eq]
  exact ⟨edits_reverse.1 (edits_distance _ _), fun n h => (edits_reverse.2 h).distance_le⟩

end Least

/-! ## Suggestions -/

/-- Sorting by a key leaves the items of one key in their order. -/
theorem filter_mergeSort {β : Type} (key : β → Nat) (l : List β) (d : Nat) :
    (l.mergeSort fun a b => key a ≤ key b).filter (key · = d) = l.filter (key · = d) := by
  have hsorted : (l.filter (key · = d)).Pairwise fun a b => decide (key a ≤ key b) = true := by
    refine pairwise_of_forall_mem_list fun a ha b hb => ?_
    have hkeys := (mem_filter.1 ha).2
    have hkey := (mem_filter.1 hb).2
    grind
  have hsub : l.filter (key · = d) <+ l.mergeSort fun a b => key a ≤ key b :=
    sublist_mergeSort (by grind) (by grind) hsorted filter_sublist
  have hsame := hsub.filter (key · = d)
  rw [filter_filter] at hsame
  simp only [Bool.and_self] at hsame
  exact (hsame.eq_of_length ((mergeSort_perm l _).filter _).length_eq.symm).symm

/-- **Suggestions are the nearest names.** The distance of two texts is the least number of characters
to insert, remove or replace. Suggested are the first three of the candidates at distance three or
less, ordered by distance; those of one distance stay in the order given. -/
theorem suggestions_nearest :
    (∀ a b : String, IsLeast {n | Edits n a.toList b.toList} (editDistance a.toList b.toList)) ∧
    ∀ (target : String) (candidates : List String), ∃ ranked : List String,
      suggest target candidates = ranked.take 3 ∧
      ranked ~ candidates.filter (nameDistance target · ≤ 3) ∧
      ranked.Pairwise (nameDistance target · ≤ nameDistance target ·) ∧
      ∀ d ≤ 3, ranked.filter (nameDistance target · = d) =
        candidates.filter (nameDistance target · = d) := by
  refine ⟨fun a b => editDistance_isLeast _ _, fun target candidates => ?_⟩
  refine ⟨_, rfl, mergeSort_perm _ _, ?_, fun d hd => ?_⟩
  · exact (pairwise_mergeSort (by grind) (by grind) _).imp of_decide_eq_true
  · rw [filter_mergeSort, filter_filter]
    refine filter_congr fun c _ => ?_
    unfold maxSuggestDistance
    grind

end Componentry
