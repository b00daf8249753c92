import Componentry.Proofs.Guard.Meaning

/-!
# Types that are the same

Types that are built alike from the same parts have the same values (`sat_of_same`), if references
to one declaration with the same arguments stand for types that are the same (`Graph.Alike`). The
comparison of types looks only at the declaration and the arguments; a reference that occurs in both
types is one node, and then stands for one type anyway.

A value also belongs to a type if more names may be followed (`Ty.Sat.mono`).
-/

namespace Componentry

open List

variable {v : Value} {n : Nat}

/-! ## Literals -/

namespace Binary64

theorem scaled_eq_iff (m n : Nat) (q r : Int) :
    m * 2 ^ (q - min q r).toNat = n * 2 ^ (r - min q r).toNat ↔
      (m : ℚ) * 2 ^ q = (n : ℚ) * 2 ^ r := by
  have hscale : ∀ (k : Nat) (e : Int), min q r ≤ e →
      ((k * 2 ^ (e - min q r).toNat : Nat) : ℚ) * 2 ^ (min q r) = (k : ℚ) * 2 ^ e := by
    intro k e he
    have hexp : (((e - min q r).toNat : Nat) : Int) + min q r = e := by omega
    push_cast
    rw [mul_assoc, ← zpow_natCast, ← zpow_add₀ (by norm_num), hexp]
  have hpos : ((2 : ℚ) ^ (min q r)) ≠ 0 := by positivity
  rw [← hscale m q (min_le_left _ _), ← hscale n r (min_le_right _ _), mul_left_inj' hpos,
    Nat.cast_inj]

/-- Two finite numbers are the same if they are zeros, or have one sign and one size. -/
theorem same_finite {s t : Bool} {m : Nat} {q r : Int} :
    (Binary64.finite s m q).same (.finite t n r) = true ↔
      (m = 0 ∧ n = 0) ∨ (m ≠ 0 ∧ n ≠ 0 ∧ s = t ∧ (m : ℚ) * 2 ^ q = (n : ℚ) * 2 ^ r) := by
  show (if m = 0 || n = 0 then m == n
    else s == t && m * 2 ^ (q - min q r).toNat == n * 2 ^ (r - min q r).toNat) = true ↔ _
  by_cases hm : m = 0
  · subst hm
    rw [if_pos (by simp), beq_iff_eq, eq_comm]
    simp
  · by_cases hn : n = 0
    · subst hn
      simp [hm]
    · rw [if_neg (by simp [hm, hn]), Bool.and_eq_true, beq_iff_eq, beq_iff_eq, scaled_eq_iff]
      tauto

/-- Two numbers that are the same as a third are the same. -/
theorem same_of_same {a b c : Binary64} (hab : a.same b = true) (hcb : c.same b = true) :
    a.same c = true := by
  cases b with
  | nan => cases a <;> cases hab
  | infinite t =>
    cases a with
    | infinite s =>
      cases c with
      | infinite u =>
        have hs : s = t := by simpa [Binary64.same] using hab
        have hu : u = t := by simpa [Binary64.same] using hcb
        simp [Binary64.same, hs, hu]
      | _ => cases hcb
    | _ => cases hab
  | finite t n r =>
    cases a with
    | finite s m q =>
      cases c with
      | finite u k e =>
        rw [same_finite] at hab hcb ⊢
        obtain ⟨rfl, rfl⟩ | ⟨hm, hn, rfl, hvalue⟩ := hab
        · obtain ⟨rfl, -⟩ | ⟨-, hn, -⟩ := hcb
          · exact .inl ⟨rfl, rfl⟩
          · exact absurd rfl hn
        · obtain ⟨-, rfl⟩ | ⟨hk, -, rfl, hvalue'⟩ := hcb
          · exact absurd rfl hn
          · exact .inr ⟨hm, hk, rfl, by rw [hvalue, hvalue']⟩
      | _ => cases hcb
    | _ => cases hab

end Binary64

/-- A value that equals a literal equals every literal that is the same. -/
theorem Value.equals_of_same {w w' : Literal} (h : v.equals w' = true) (hsame : w.same w' = true) :
    v.equals w = true := by
  cases w' with
  | null => cases w <;> first | exact h | cases hsame
  | text s =>
    cases w with
    | text t =>
      obtain rfl : t = s := by simpa [Literal.same] using hsame
      exact h
    | _ => cases hsame
  | bool b =>
    cases w with
    | bool a =>
      obtain rfl : a = b := by simpa [Literal.same] using hsame
      exact h
    | _ => cases hsame
  | number b =>
    cases w with
    | number a =>
      cases v with
      | number c => exact Binary64.same_of_same h hsame
      | _ => cases h
    | _ => cases hsame
  | list items => cases w <;> cases hsame

/-! ## Values -/

mutual

/-- How deep lists and objects stand inside one another in a value. -/
def Value.depth : Value → Nat
  | .list items => Value.depthAll items + 1
  | .record fields => Value.depthIn fields + 1
  | _ => 0

def Value.depthAll : List Value → Nat
  | [] => 0
  | v :: vs => max v.depth (Value.depthAll vs)

def Value.depthIn : List (String × Value) → Nat
  | [] => 0
  | (_, v) :: fs => max v.depth (Value.depthIn fs)

end

mutual

/-- The classes of the instances inside a value. -/
def Value.instances : Value → List (List String)
  | .inst classes => [classes]
  | .list items => Value.instancesAll items
  | .record fields => Value.instancesIn fields
  | _ => []

def Value.instancesAll : List Value → List (List String)
  | [] => []
  | v :: vs => v.instances ++ Value.instancesAll vs

def Value.instancesIn : List (String × Value) → List (List String)
  | [] => []
  | (_, v) :: fs => v.instances ++ Value.instancesIn fs

end

/-- The first value stands directly inside the second, or is the value of a field that the second
lacks. -/
def Value.Inside (w v : Value) : Prop :=
  w.depth < v.depth ∧ ∀ classes ∈ w.instances, classes ∈ v.instances

theorem Value.inside_list {w : Value} : ∀ {vs : List Value}, w ∈ vs → w.Inside (.list vs)
  | u :: vs, h => by
    obtain rfl | h := mem_cons.1 h
    · refine ⟨?_, fun classes hc => mem_append_left _ hc⟩
      show w.depth < max w.depth (depthAll vs) + 1
      omega
    · obtain ⟨hdepth, hclasses⟩ := Value.inside_list h
      refine ⟨?_, fun classes hc => mem_append_right _ (hclasses classes hc)⟩
      have hdepth : w.depth < depthAll vs + 1 := hdepth
      show w.depth < max u.depth (depthAll vs) + 1
      omega

theorem Value.inside_record (name : String) : ∀ fields : List (String × Value),
    ((fields.lookup name).getD .undefined).Inside (.record fields)
  | [] => ⟨Nat.zero_lt_one, nofun⟩
  | (key, u) :: fields => by
    have ih := Value.inside_record name fields
    rw [lookup_cons]
    split
    · refine ⟨?_, fun classes hc => mem_append_left _ hc⟩
      show u.depth < max u.depth (depthIn fields) + 1
      omega
    · obtain ⟨hdepth, hclasses⟩ := ih
      refine ⟨?_, fun classes hc => mem_append_right _ (hclasses classes hc)⟩
      have hdepth : ((fields.lookup name).getD .undefined).depth < depthIn fields + 1 := hdepth
      show _ < max u.depth (depthIn fields) + 1
      omega

/-- Instances are instances of what their classes extend, as references inside `source` tell. -/
def Value.ClosedUnder (g : Graph) (uidOf : Declaration → String) (source : Ty) (v : Value) : Prop :=
  ∀ classes ∈ v.instances, ∀ {id d args bases}, g.Occurs source (.reference id d args bases) →
    uidOf d ∈ classes → ∀ b ∈ bases, uidOf b ∈ classes

theorem Value.Inside.closedUnder {g : Graph} {uidOf : Declaration → String} {source : Ty}
    {w : Value} (h : w.Inside v) (hv : v.ClosedUnder g uidOf source) :
    w.ClosedUnder g uidOf source :=
  fun classes hc => hv classes (h.2 classes hc)

/-! ## Types that are the same -/

section Same

variable {g : Graph} {uidOf : Declaration → String}

/-- More names may be followed. -/
theorem Ty.Sat.mono {n m : Nat} {t : Ty} {v : Value} (h : t.Sat g uidOf n v) (hnm : n ≤ m) :
    t.Sat g uidOf m v := by
  match t with
  | .primitive i name | .literal i w => rw [Ty.Sat] at h ⊢; exact h
  | .union i members =>
    rw [Ty.Sat] at h ⊢
    obtain ⟨t, ht, h⟩ := h
    exact ⟨t, ht, Ty.Sat.mono h hnm⟩
  | .intersection i members =>
    rw [Ty.Sat] at h ⊢
    exact fun t ht => .mono (h t ht) hnm
  | .tuple i elements =>
    rw [Ty.Sat] at h ⊢
    obtain ⟨vs, rfl, hlen, h⟩ := h
    exact ⟨vs, rfl, hlen, fun j hj w hw => .mono (h j hj w hw) hnm⟩
  | .array i e =>
    rw [Ty.Sat] at h ⊢
    obtain ⟨vs, rfl, h⟩ := h
    exact ⟨vs, rfl, fun w hw => .mono (h w hw) hnm⟩
  | .object i fields =>
    rw [Ty.Sat] at h ⊢
    obtain ⟨entries, rfl, h⟩ := h
    exact ⟨entries, rfl, fun f hf => (h f hf).imp_right fun h => .mono h hnm⟩
  | .reference i d args bases =>
    rw [Ty.sat_reference] at h ⊢
    split
    · next hk => rwa [if_pos hk] at h
    · next hk =>
        rw [if_neg hk] at h
        cases hb : g.target? i with
        | none => trivial
        | some body =>
          rw [hb] at h
          cases n with
          | zero => exact h.elim
          | succ n =>
            cases m with
            | zero => cases hnm
            | succ m => exact .mono (t := body) h (Nat.le_of_succ_le_succ hnm)
  | .deferred i s | .unrepresentable i s => rw [Ty.Sat]; trivial
termination_by (n, sizeOf t)
decreasing_by
  all_goals simp_wf
  · have := List.sizeOf_lt_of_mem ‹_ ∈ members›
    omega
  · have := List.sizeOf_lt_of_mem ‹_ ∈ members›
    omega
  · have := List.sizeOf_lt_of_mem (List.getElem_mem hj)
    omega
  · omega
  · have := List.sizeOf_lt_of_mem ‹_ ∈ fields›
    have := f.sizeOf_type_lt
    omega
  · omega

/-- Nodes that occur in the two types are told apart by their numbers. -/
def Graph.OneNode (g : Graph) (target source : Ty) : Prop :=
  ∀ {u u' : Ty}, g.Occurs target u ∨ g.Occurs source u → g.Occurs target u' ∨ g.Occurs source u' →
    u.id = u'.id → u = u'

/-- Two references to one declaration, with arguments that are the same, stand for types that are
the same. This is said of references that are not one node. -/
def Graph.Alike (g : Graph) (target source : Ty) : Prop :=
  ∀ {i d as bases j e bs bases'}, g.Occurs target (.reference i d as bases) →
    g.Occurs source (.reference j e bs bases') → i ≠ j → d.id = e.id →
    Ty.sameAll as bs = true ∨ Ty.sameAll bs as = true →
      d.kind = e.kind ∧ (d.kind ≠ .classDecl → ∀ a, g.target? i = some a →
        ∃ b, g.target? j = some b ∧ a.same b = true)

/-- All parts of a type occur in the graph of another. -/
def Graph.Covers (g : Graph) (whole t : Ty) : Prop := ∀ u : Ty, u.Part t → g.Occurs whole u

theorem Graph.covers_target {whole body : Ty} {i : NodeId} (h : g.target? i = some body) :
    g.Covers whole body := fun _ hu => Or.inr ⟨i, body, h, hu⟩

variable {target source : Ty}

/-- The values of a reference, given those of a reference to the same declaration. -/
theorem sat_reference_of_alike (hone : g.OneNode target source) (halike : g.Alike target source)
    (huid : ∀ d e : Declaration, d.id = e.id → uidOf d = uidOf e) {i j : NodeId}
    {d e : Declaration} {as bs : List Ty} {bases bases' : List Declaration}
    (ih : ∀ {m : Nat} {a b : Ty}, m < n → g.Covers target a → g.Covers source b →
      a.same b = true → b.Sat g uidOf m v → a.Sat g uidOf m v)
    (ht : g.Occurs target (.reference i d as bases))
    (hs : g.Occurs source (.reference j e bs bases')) (hid : d.id = e.id)
    (hargs : Ty.sameAll as bs = true ∨ Ty.sameAll bs as = true)
    (h : (Ty.reference j e bs bases').Sat g uidOf n v) :
    (Ty.reference i d as bases).Sat g uidOf n v := by
  by_cases hij : i = j
  · have hnode : Ty.reference i d as bases = .reference j e bs bases' :=
      hone (.inl ht) (.inr hs) hij
    rw [hnode]
    exact h
  obtain ⟨hkind, hbody⟩ := halike ht hs hij hid hargs
  rw [Ty.sat_reference] at h ⊢
  split
  · next hk =>
      rw [if_pos (hkind ▸ hk)] at h
      rwa [huid d e hid]
  · next hk =>
      rw [if_neg (hkind ▸ hk)] at h
      cases ha : g.target? i with
      | none => trivial
      | some a =>
        obtain ⟨b, hb, hab⟩ := hbody hk a ha
        rw [hb] at h
        cases n with
        | zero => exact h.elim
        | succ n => exact ih (Nat.lt_succ_self n) (g.covers_target ha) (g.covers_target hb) hab h

theorem sameAll_iff : ∀ {ts us : List Ty},
    Ty.sameAll ts us = true ↔ Forall₂ (fun t u => t.same u = true) ts us
  | [], [] => by simp [Ty.sameAll]
  | t :: ts, u :: us => by rw [Ty.sameAll, Bool.and_eq_true, sameAll_iff, forall₂_cons]
  | [], _ :: _ | _ :: _, [] => by simp [Ty.sameAll]

theorem findField_name {fs : List TyField} {name : String} {f : TyField}
    (h : findField fs name = some f) : f.name = name := by
  simpa using find?_some h

theorem sameFields_iff {fs gs : List TyField} : Ty.sameFields fs gs = true ↔
    ∀ f ∈ fs, ∃ e, findField gs f.name = some e ∧ e.optional = f.optional ∧
      f.type.same e.type = true := by
  induction fs with
  | nil => simp [Ty.sameFields]
  | cons f fs ih =>
    obtain ⟨name, t, optional⟩ := f
    rw [Ty.sameFields, Bool.and_eq_true, ih, forall_mem_cons]
    refine and_congr_left fun _ => ?_
    show _ ↔ ∃ e, findField gs name = some e ∧ e.optional = optional ∧ t.same e.type = true
    cases findField gs name <;> simp

/-- References that are built alike, one from each set, have the same values, if that holds of all
types from the sets with fewer names to follow. -/
def Graph.ReferencesAgree (g : Graph) (uidOf : Declaration → String) (T S : Ty → Prop) : Prop :=
  ∀ {i j : NodeId} {d e : Declaration} {as bs : List Ty} {bases bases' : List Declaration}
    {n : Nat} {v : Value}, T (.reference i d as bases) → S (.reference j e bs bases') →
    d.id = e.id → Ty.sameAll as bs = true →
    (∀ {m : Nat} {a b : Ty}, m < n → (∀ u : Ty, u.Part a → T u) → (∀ u : Ty, u.Part b → S u) →
      a.same b = true → b.Sat g uidOf m v → a.Sat g uidOf m v) →
    (Ty.reference j e bs bases').Sat g uidOf n v → (Ty.reference i d as bases).Sat g uidOf n v

/-- Types that are the same have the same values, if that holds of the references in them. The
recursion is that of the values of a type. -/
theorem sat_of_same_parts {T S : Ty → Prop} (hrefs : g.ReferencesAgree uidOf T S) {n : Nat}
    {t s : Ty} {v : Value} (ht : ∀ u : Ty, u.Part t → T u) (hs : ∀ u : Ty, u.Part s → S u)
    (hsame : t.same s = true) (h : s.Sat g uidOf n v) : t.Sat g uidOf n v := by
  match t, s with
  | .primitive i name, .primitive j name' =>
    obtain rfl : name = name' := by simpa [Ty.same] using hsame
    rw [Ty.Sat] at h ⊢
    exact h
  | .literal i w, .literal j w' =>
    rw [Ty.Sat] at h ⊢
    exact Value.equals_of_same h (by simpa [Ty.same] using hsame)
  | .union i ms, .union j ns =>
    rw [Ty.Sat] at h ⊢
    obtain ⟨u, hu, h⟩ := h
    rw [Ty.same] at hsame
    obtain ⟨k, hk, rfl⟩ := mem_iff_getElem.1 hu
    have hall := sameAll_iff.1 hsame
    have hk' : k < ms.length := hall.length_eq ▸ hk
    exact ⟨ms[k], getElem_mem hk', sat_of_same_parts hrefs
      (fun x hx => ht x (.union (getElem_mem hk') hx))
      (fun x hx => hs x (.union hu hx)) (hall.get hk' hk) h⟩
  | .intersection i ms, .intersection j ns =>
    rw [Ty.Sat] at h ⊢
    rw [Ty.same] at hsame
    intro t htm
    obtain ⟨k, hk, rfl⟩ := mem_iff_getElem.1 htm
    have hall := sameAll_iff.1 hsame
    have hk' : k < ns.length := hall.length_eq ▸ hk
    exact sat_of_same_parts hrefs (fun x hx => ht x (.intersection htm hx))
      (fun x hx => hs x (.intersection (getElem_mem hk') hx)) (hall.get hk hk')
      (h _ (getElem_mem hk'))
  | .tuple i ms, .tuple j ns =>
    rw [Ty.Sat] at h ⊢
    rw [Ty.same] at hsame
    have hall := sameAll_iff.1 hsame
    obtain ⟨vs, rfl, hlen, h⟩ := h
    refine ⟨vs, rfl, hlen.trans hall.length_eq.symm, fun k hk w hw => ?_⟩
    have hk' : k < ns.length := hall.length_eq ▸ hk
    exact sat_of_same_parts hrefs (fun x hx => ht x (.tuple (getElem_mem hk) hx))
      (fun x hx => hs x (.tuple (getElem_mem hk') hx)) (hall.get hk hk') (h k hk' w hw)
  | .array i e, .array j e' =>
    rw [Ty.Sat] at h ⊢
    rw [Ty.same] at hsame
    obtain ⟨vs, rfl, h⟩ := h
    exact ⟨vs, rfl, fun w hw => sat_of_same_parts hrefs (fun x hx => ht x (.array hx))
      (fun x hx => hs x (.array hx)) hsame (h w hw)⟩
  | .object i fs, .object j gs =>
    rw [Ty.Sat] at h ⊢
    rw [Ty.same, Bool.and_eq_true, sameFields_iff] at hsame
    obtain ⟨entries, rfl, h⟩ := h
    refine ⟨entries, rfl, fun f hf => ?_⟩
    obtain ⟨f', hfind, hoptional, htypes⟩ := hsame.2 f hf
    have hf' := mem_of_find?_eq_some hfind
    have hfield := h f' hf'
    rw [findField_name hfind, hoptional] at hfield
    exact hfield.imp_right fun h => sat_of_same_parts hrefs (fun x hx => ht x (.object hf hx))
      (fun x hx => hs x (.object hf' hx)) htypes h
  | .reference i d as bases, .reference j e bs bases' =>
    rw [Ty.same, Bool.and_eq_true, beq_iff_eq] at hsame
    exact hrefs (ht _ (.refl _)) (hs _ (.refl _)) hsame.1 hsame.2
      (fun hm ha hb hab hsat => sat_of_same_parts hrefs ha hb hab hsat) h
termination_by (n, sizeOf t)
decreasing_by
  all_goals simp_wf
  · have := List.sizeOf_lt_of_mem (List.getElem_mem hk')
    omega
  · have := List.sizeOf_lt_of_mem (List.getElem_mem hk)
    omega
  · have := List.sizeOf_lt_of_mem (List.getElem_mem hk)
    omega
  · omega
  · have := List.sizeOf_lt_of_mem hf
    have := f.sizeOf_type_lt
    omega
  · omega

/-- Types that are the same have the same values. -/
theorem sat_of_same (hone : g.OneNode target source) (halike : g.Alike target source)
    (huid : ∀ d e : Declaration, d.id = e.id → uidOf d = uidOf e) {t s : Ty}
    (ht : g.Covers target t) (hs : g.Covers source s) (hsame : t.same s = true)
    (h : s.Sat g uidOf n v) : t.Sat g uidOf n v :=
  sat_of_same_parts (fun ht hs hid hargs ih h =>
    sat_reference_of_alike hone halike huid ih ht hs hid (.inl hargs) h) ht hs hsame h

end Same

end Componentry
