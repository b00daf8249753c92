import Componentry.Proofs.Types.Fields

/-!
# Types that are trees

A type with the types that its references stand for is a graph. Its places are told by the way down
to them (`Graph.At`). It is a tree if no number stands at two places: no node occurs twice, and no
reference leads back to itself (`Graph.IsTree`). The arguments of a reference are not among its
places.

In a tree, different parts have different numbers inside (`IsTree.parts_apart`), and the way down to
a place is no longer than there are nodes (`IsTree.depth`).
-/

namespace Componentry

open List

variable {f : TyField} {u v t : Ty} {fs : List TyField} {q : List Nat}

namespace Graph

/-- What a type is built from, and what a reference stands for. -/
def parts (g : Graph) : Ty → List Ty
  | .union _ ts | .intersection _ ts | .tuple _ ts => ts
  | .array _ e => [e]
  | .object _ fields => fields.map TyField.type
  | .reference i _ _ _ => (g.target? i).toList
  | .primitive _ _ | .literal _ _ | .deferred _ _ | .unrepresentable _ _ => []

/-- The type `u` stands at a place in `t`. -/
inductive At (g : Graph) : Ty → List Nat → Ty → Prop
  | here (t : Ty) : At g t [] t
  | inside {t part u : Ty} {i : Nat} {q : List Nat} (hpart : (g.parts t)[i]? = some part)
      (h : At g part q u) : At g t (i :: q) u

/-- The type `u` stands somewhere in `t`. -/
def Inside (g : Graph) (t u : Ty) : Prop := ∃ q, g.At t q u

/-- No number stands at two places, and all of them have been given out. -/
structure IsTree (g : Graph) (t : Ty) : Prop where
  once : ∀ {q q' : List Nat} {u u' : Ty}, g.At t q u → g.At t q' u' → u.id = u'.id → q = q'
  numbered : ∀ {u : Ty}, g.Inside t u → u.id < g.next

/-- No number stands in both types. -/
def Apart (g : Graph) (t s : Ty) : Prop :=
  ∀ {u v : Ty}, g.Inside t u → g.Inside s v → u.id ≠ v.id

/-- No way down is longer than `d`. -/
def Depth (g : Graph) (t : Ty) (d : Nat) : Prop :=
  ∀ {q : List Nat} {u : Ty}, g.At t q u → q.length ≤ d

variable {g : Graph} {t s u p : Ty}

/-! ## Places -/

theorem inside_self (t : Ty) : g.Inside t t := ⟨[], .here t⟩

theorem At.append {r : List Nat} (hu : g.At t q u) (hv : g.At u r v) : g.At t (q ++ r) v := by
  induction hu with
  | here => exact hv
  | inside hpart _ ih => exact .inside hpart (ih hv)

theorem Inside.trans (hu : g.Inside t u) (hv : g.Inside u v) : g.Inside t v := by
  obtain ⟨q, hq⟩ := hu
  obtain ⟨r, hr⟩ := hv
  exact ⟨q ++ r, hq.append hr⟩

theorem at_part (h : p ∈ g.parts t) : ∃ i, g.At t [i] p := by
  obtain ⟨i, hi⟩ := mem_iff_getElem?.1 h
  exact ⟨i, .inside hi (.here p)⟩

theorem inside_part (h : p ∈ g.parts t) : g.Inside t p := by
  obtain ⟨i, hi⟩ := at_part h
  exact ⟨[i], hi⟩

/-- What stands in a type is the type, or stands in a part. -/
theorem inside_cases (h : g.Inside t u) : u = t ∨ ∃ p ∈ g.parts t, g.Inside p u := by
  obtain ⟨q, hq⟩ := h
  cases hq with
  | here => exact .inl rfl
  | @inside _ p _ i q hpart hq => exact .inr ⟨p, mem_of_getElem? hpart, q, hq⟩

/-! ## Trees -/

theorem IsTree.part (h : g.IsTree t) (hpart : p ∈ g.parts t) : g.IsTree p where
  once := by
    intro q q' u u' hu hu' hid
    -- a place in the part, put behind the way to the part, is a place in the whole
    obtain ⟨i, hi⟩ := at_part hpart
    exact append_cancel_left (h.once (hi.append hu) (hi.append hu') hid)
  numbered := fun hu => h.numbered ((inside_part hpart).trans hu)

theorem IsTree.root_ne (h : g.IsTree t) (hpart : p ∈ g.parts t) (hu : g.Inside p u) :
    u.id ≠ t.id := by
  intro hid
  obtain ⟨i, hi⟩ := at_part hpart
  obtain ⟨q, hq⟩ := hu
  have hplace := h.once (hi.append hq) (.here t) hid
  simp at hplace

/-- The parts of a tree have no number in common. -/
theorem IsTree.parts_apart (h : g.IsTree t) : (g.parts t).Pairwise g.Apart := by
  rw [pairwise_iff_getElem]
  rintro i j hi hj hij u v ⟨q, hu⟩ ⟨r, hv⟩ hid
  have hplace := h.once (.inside (getElem?_eq_getElem hi) hu)
    (.inside (getElem?_eq_getElem hj) hv) hid
  cases hplace
  exact absurd hij (Nat.lt_irrefl i)

/-! ## How deep a tree is -/

theorem Depth.part {d : Nat} (h : g.Depth t d) (hpart : p ∈ g.parts t) :
    ∃ d', d = d' + 1 ∧ g.Depth p d' := by
  obtain ⟨i, hi⟩ := at_part hpart
  have hone : 1 ≤ d := h hi
  refine ⟨d - 1, by omega, ?_⟩
  intro q u hq
  have hmore := h (hi.append hq)
  rw [length_append, length_singleton] at hmore
  omega

theorem Part.of_parts (h : p ∈ g.parts t) : p.Part t ∨ ∃ i, g.target? i = some p := by
  cases t with
  | union i ts => exact .inl (.union h (.refl _))
  | intersection i ts => exact .inl (.intersection h (.refl _))
  | tuple i ts => exact .inl (.tuple h (.refl _))
  | array i e =>
    rw [parts, mem_singleton] at h
    rw [h]
    exact .inl (.array (.refl _))
  | object i fields =>
    obtain ⟨f, hf, rfl⟩ := mem_map.1 h
    exact .inl (.object hf (.refl _))
  | reference i d args bases => exact .inr ⟨i, Option.mem_toList.1 h⟩
  | _ => cases h

theorem Occurs.at (h : g.Occurs t u) (hv : g.At u q v) : g.Occurs t v := by
  induction hv with
  | here => exact h
  | inside hpart hv ih =>
    apply ih
    obtain hsub | ⟨j, hbody⟩ := Part.of_parts (mem_of_getElem? hpart)
    · obtain hu | ⟨j, body, hbody, hu⟩ := h
      · exact .inl (hsub.trans hu)
      · exact .inr ⟨j, body, hbody, hsub.trans hu⟩
    · exact .inr ⟨j, _, hbody, .refl _⟩

end Graph

namespace Ty

mutual

theorem length_pieces : ∀ t : Ty, t.pieces.length ≤ t.size
  | .union i ts | .intersection i ts | .tuple i ts => by
    simpa [pieces, size] using length_piecesAll ts
  | .array i e => by simpa [pieces, size] using length_pieces e
  | .object i fields => by simpa [pieces, size] using length_piecesFields fields
  | .primitive .. | .literal .. | .reference .. | .deferred .. | .unrepresentable .. => by
    simp [pieces, size]

theorem length_piecesAll : ∀ ts : List Ty, (piecesAll ts).length ≤ sizeAll ts
  | [] => by simp [piecesAll, sizeAll]
  | t :: ts => by
    rw [piecesAll, sizeAll, length_append]
    exact Nat.add_le_add (length_pieces t) (length_piecesAll ts)

theorem length_piecesFields : ∀ fs : List TyField, (piecesFields fs).length ≤ sizeFields fs
  | [] => by simp [piecesFields, sizeFields]
  | .mk _ t _ :: fs => by
    rw [piecesFields, sizeFields, length_append]
    exact Nat.add_le_add (length_pieces t) (length_piecesFields fs)

end

end Ty

namespace Graph

variable {g : Graph} {t u : Ty}

theorem length_pool (g : Graph) (t : Ty) : (g.pool t).length ≤ t.size + g.size := by
  rw [pool, length_append]
  exact Nat.add_le_add (Ty.length_pieces t) (Ty.length_piecesAll _)

/-- The numbers on the way down to a place are all different. -/
theorem IsTree.way (h : g.IsTree t) (hu : g.At t q u) :
    ∃ ids : List NodeId, ids.length = q.length + 1 ∧ ids.Nodup ∧
      ∀ x ∈ ids, ∃ v, g.Inside t v ∧ v.id = x := by
  induction hu with
  | here t => exact ⟨[t.id], rfl, nodup_singleton _, by simpa using ⟨t, inside_self t, rfl⟩⟩
  | @inside t p u i q hpart hu ih =>
    have hp := mem_of_getElem? hpart
    obtain ⟨ids, hlength, hnodup, hids⟩ := ih (h.part hp)
    refine ⟨t.id :: ids, by simp [hlength], nodup_cons.2 ⟨fun hmem => ?_, hnodup⟩, ?_⟩
    · -- the number of the root does not come back below it
      obtain ⟨v, hv, hid⟩ := hids _ hmem
      exact h.root_ne hp hv hid
    · intro x hx
      obtain rfl | hx := mem_cons.1 hx
      · exact ⟨t, inside_self t, rfl⟩
      · obtain ⟨v, hv, hid⟩ := hids x hx
        exact ⟨v, (inside_part hp).trans hv, hid⟩

/-- A tree is at most as deep as it has nodes. -/
theorem IsTree.depth (h : g.IsTree t) : g.Depth t (t.size + g.size) := by
  intro q u hu
  -- the numbers on the way are different, and all of them belong to nodes of the pool
  obtain ⟨ids, hlength, hnodup, hids⟩ := h.way hu
  have hsubset : ids ⊆ (g.pool t).map Ty.id := by
    intro x hx
    obtain ⟨v, ⟨r, hv⟩, rfl⟩ := hids x hx
    exact mem_map_of_mem (Occurs.at (Or.inl (.refl t)) hv).mem_pool
  have hle := (subperm_of_subset hnodup hsubset).length_le
  rw [length_map] at hle
  have := g.length_pool t
  omega

/-! ## Trees without references -/

/-- A type is a tree if its parts are trees that have no number in common, and not its own. -/
theorem isTree_of_parts (htrees : ∀ p ∈ g.parts t, g.IsTree p)
    (hapart : (g.parts t).Pairwise g.Apart)
    (hroot : ∀ p ∈ g.parts t, ∀ u, g.Inside p u → u.id ≠ t.id) (hid : t.id < g.next) :
    g.IsTree t where
  once := by
    intro q q' u u' hu hu' heq
    cases hu with
    | here =>
      cases hu' with
      | here => rfl
      | inside hpart hu' =>
        exact absurd heq.symm (hroot _ (mem_of_getElem? hpart) _ ⟨_, hu'⟩)
    | @inside _ p _ i r hpart hu =>
      cases hu' with
      | here => exact absurd heq (hroot p (mem_of_getElem? hpart) _ ⟨r, hu⟩)
      | @inside _ p' _ j r' hpart' hu' =>
        obtain ⟨hi, rfl⟩ := List.getElem?_eq_some_iff.1 hpart
        obtain ⟨hj, rfl⟩ := List.getElem?_eq_some_iff.1 hpart'
        have hpairs := pairwise_iff_getElem.1 hapart
        -- two parts have no number in common, so both places lie in one part
        obtain hlt | rfl | hlt := Nat.lt_trichotomy i j
        · exact absurd heq (hpairs i j hi hj hlt ⟨r, hu⟩ ⟨r', hu'⟩)
        · rw [(htrees _ (getElem_mem hi)).once hu hu' heq]
        · exact absurd heq.symm (hpairs j i hj hi hlt ⟨r', hu'⟩ ⟨r, hu⟩)
  numbered := by
    intro u hu
    obtain rfl | ⟨p, hp, hu⟩ := inside_cases hu
    · exact hid
    · exact (htrees p hp).numbered hu

theorem pieces_eq (hg : g.targets = []) (t : Ty) :
    t.pieces = t :: (g.parts t).flatMap Ty.pieces := by
  cases t <;> simp [Ty.pieces, parts, Ty.piecesAll_eq, Ty.piecesFields_eq, target?, hg]

theorem inside_pieces (hg : g.targets = []) (h : g.Inside t u) : u ∈ t.pieces := by
  obtain ⟨q, hq⟩ := h
  have hmem := (Occurs.at (Or.inl (.refl t)) hq).mem_pool
  simpa [pool, hg, Ty.piecesAll] using hmem

/-- Where no reference stands for anything, a type is a tree if its nodes have different numbers. -/
theorem isTree_of_nodup (hg : g.targets = []) (t : Ty) (hnodup : (t.pieces.map Ty.id).Nodup)
    (hnext : ∀ u ∈ t.pieces, u.id < g.next) : g.IsTree t := by
  have hpieces := pieces_eq hg t
  rw [hpieces, map_cons, nodup_cons, map_flatMap, nodup_flatMap] at hnodup
  obtain ⟨hroot, hparts, hapart⟩ := hnodup
  have hmem : ∀ p ∈ g.parts t, ∀ u ∈ p.pieces, u ∈ t.pieces := by
    intro p hp u hu
    rw [hpieces]
    exact mem_cons_of_mem _ (mem_flatMap.2 ⟨p, hp, hu⟩)
  refine isTree_of_parts (fun p hp => ?_) ?_ ?_ (hnext t (by rw [hpieces]; simp))
  · have hlength : p.pieces.length < t.pieces.length := by
      obtain ⟨before, after, heq⟩ := append_of_mem hp
      rw [hpieces, heq]
      simp only [length_cons, flatMap_append, flatMap_cons, length_append]
      omega
    exact isTree_of_nodup hg p (hparts p hp) fun u hu => hnext u (hmem p hp u hu)
  · refine hapart.imp fun hdisjoint u v hu hv heq => ?_
    exact hdisjoint (mem_map_of_mem (inside_pieces hg hu))
      (heq ▸ mem_map_of_mem (inside_pieces hg hv))
  · intro p hp u hu heq
    refine hroot (heq ▸ mem_flatMap.2 ⟨p, hp, ?_⟩)
    exact mem_map_of_mem (inside_pieces hg hu)
termination_by t.pieces.length

end Graph

/-! ## Merged members of intersections -/

/-- The field belongs to an object type that stands in `t`. -/
def Graph.Bears (g : Graph) (t : Ty) (f : TyField) : Prop :=
  ∃ i fields, f ∈ fields ∧ g.Inside t (.object i fields)

theorem Graph.Declares.bears {g : Graph} (h : g.Declares t f) : g.Bears t f := by
  induction h with
  | object hf => exact ⟨_, _, hf, inside_self _⟩
  | reference hbody _ ih =>
    obtain ⟨i, fields, hf, ho⟩ := ih
    exact ⟨i, fields, hf, (inside_part (Option.mem_toList.2 hbody)).trans ho⟩
  | intersection hm _ ih =>
    obtain ⟨i, fields, hf, ho⟩ := ih
    exact ⟨i, fields, hf, (inside_part hm).trans ho⟩

end Componentry
