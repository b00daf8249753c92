import Componentry.Proofs.Guard.Meaning
import Componentry.Proofs.Reflection
import Componentry.Proofs.Types.Merging

/-!
# Where the fields of a type come from

A type that has fields is put together from object types by intersections and references. The fields
of these object types, in the order in which they are come to, are what the type spreads
(`Graph.Spreads`). Of several fields with one name only one is a field of the type.

The members of an intersection are put together in two ways, which differ in the field that counts for
a name. They agree on the names (`mergers_agree`): both take their fields from what the type spreads
and keep each name where it occurs first, or both find no fields. A way of finding fields returns those
of a member, in which names were dropped already; a way of merging puts all fields behind those so far.
That is the same for the names, because dropping repetitions first changes nothing
(`eraseDups_append_eraseDups`).

`fieldsOf_occurs` says that each field belongs to an object type that occurs in the type or in a
body, so what is known of everything that occurs is known of the types of the fields.
-/

namespace Componentry

open List TyField

variable {t : Ty} {f : TyField} {fs sofar before all : List TyField}

/-! ## Fields put over one another -/

theorem mem_putField {g : TyField} : ∀ {fs : List TyField}, g ∈ putField fs f → g ∈ fs ∨ g = f
  | [], h => by
    rw [putField, mem_singleton] at h
    exact Or.inr h
  | x :: xs, h => by
    rw [putField] at h
    split at h
    · obtain rfl | h := mem_cons.1 h
      · exact Or.inr rfl
      · exact Or.inl (mem_cons_of_mem _ h)
    · obtain rfl | h := mem_cons.1 h
      · exact Or.inl mem_cons_self
      · exact (mem_putField h).imp_left (mem_cons_of_mem _)

theorem mem_addField {g : TyField} (h : g ∈ addField fs f) : g ∈ fs ∨ g = f := by
  unfold addField at h
  split at h
  · exact .inl h
  · simpa using h

theorem mem_foldl {put : List TyField → TyField → List TyField}
    (hput : ∀ {fs f g}, g ∈ put fs f → g ∈ fs ∨ g = f) (h : f ∈ fs.foldl put sofar) :
    f ∈ sofar ∨ f ∈ fs := by
  induction fs generalizing sofar with
  | nil => exact Or.inl h
  | cons e fs ih =>
    rw [foldl_cons] at h
    obtain h | h := ih h
    · obtain h | rfl := hput h
      · exact Or.inl h
      · exact Or.inr mem_cons_self
    · exact Or.inr (mem_cons_of_mem _ h)

theorem map_putField (fs : List TyField) (f : TyField) : (putField fs f).map name =
    if f.name ∈ fs.map name then fs.map name
    else fs.map name ++ [f.name] := by
  induction fs with
  | nil => rfl
  | cons e fs ih =>
    rw [putField]
    split
    · simp_all
    · rename_i hname
      have hne : f.name ≠ e.name := fun h => hname (beq_iff_eq.2 h.symm)
      simp only [map_cons, ih, mem_cons, hne, false_or]
      split <;> rfl

theorem map_addField (fs : List TyField) (f : TyField) : (addField fs f).map name =
    if f.name ∈ fs.map name then fs.map name
    else fs.map name ++ [f.name] := by
  have hfound : (findField fs f.name).isSome = true ↔ f.name ∈ fs.map name := by
    simp [findField]
  rw [addField]
  simp only [hfound]
  split <;> simp

/-! ## Names -/

theorem eraseDups_append_eraseDups {α : Type} [DecidableEq α] (before l : List α) :
    (before ++ l.eraseDups).eraseDups = (before ++ l).eraseDups := by
  induction l using reverseRecOn with
  | nil => rw [eraseDups_nil]
  | append_singleton l a ih =>
    rw [eraseDups_concat, ← append_assoc, eraseDups_concat, ← ih]
    by_cases ha : a ∈ l
    · rw [if_pos ha, if_pos (mem_append_right _ ha)]
    · rw [if_neg ha, ← append_assoc, eraseDups_concat]
      simp only [mem_append, mem_eraseDups]

/-- The names of fields, each of them once, where it occurs first. -/
def firstNames (fs : List TyField) : List String := (fs.map name).eraseDups

/-- Of the fields in `all` there is one of each name, where the name occurs first. -/
structure Selects (fs all : List TyField) : Prop where
  subset : fs ⊆ all
  names : fs.map name = firstNames all

theorem Selects.nil : Selects [] [] := ⟨nil_subset _, rfl⟩

theorem names_foldl {put : List TyField → TyField → List TyField}
    (hput : ∀ fs f, (put fs f).map name = if f.name ∈ fs.map name
      then fs.map name else fs.map name ++ [f.name])
    (h : sofar.map name = firstNames before) :
    (fs.foldl put sofar).map name = firstNames (before ++ fs) := by
  induction fs generalizing sofar before with
  | nil => simpa using h
  | cons f fs ih =>
    rw [foldl_cons, append_cons]
    apply ih
    unfold firstNames at h ⊢
    rw [hput, map_append, map_singleton, eraseDups_concat, h]
    simp only [mem_eraseDups]

/-- Fields put over others, whichever were dropped before because of their names. -/
theorem Selects.put (h : Selects sofar before) (hsubset : fs ⊆ all)
    (hnames : firstNames fs = firstNames all) : Selects (fs.foldl putField sofar) (before ++ all) where
  subset := fun f hf => mem_append.2 ((mem_foldl mem_putField hf).imp (h.subset ·) (hsubset ·))
  names := by
    rw [names_foldl map_putField h.names]
    unfold firstNames at hnames ⊢
    rw [map_append, ← eraseDups_append_eraseDups, hnames, eraseDups_append_eraseDups, map_append]

/-! ## Fields of parts -/

/-- The field belongs to an object type that occurs in `t` or in what a reference stands for. -/
def Graph.HasField (g : Graph) (t : Ty) (f : TyField) : Prop :=
  ∃ i fields, f ∈ fields ∧ g.Occurs t (.object i fields)

theorem Ty.Part.trans {u m : Ty} (hu : u.Part m) (hm : m.Part t) : u.Part t := by
  induction hm with
  | refl => exact hu
  | union hmem _ ih => exact .union hmem ih
  | intersection hmem _ ih => exact .intersection hmem ih
  | tuple hmem _ ih => exact .tuple hmem ih
  | array _ ih => exact .array ih
  | object hmem _ ih => exact .object hmem ih

theorem Graph.HasField.part {g : Graph} {u : Ty} (h : g.HasField t f) (hu : u.Part f.type) :
    g.Occurs t u := by
  obtain ⟨i, fields, hf, hs | ⟨id, body, hbody, hs⟩⟩ := h
  · exact Or.inl (Ty.Part.trans (.object hf hu) hs)
  · exact Or.inr ⟨id, body, hbody, Ty.Part.trans (.object hf hu) hs⟩

/-! ## Shapes -/

/-- An object type that the type is put together from has the field. -/
inductive Graph.Declares (g : Graph) : Ty → TyField → Prop
  | object {i : NodeId} {fields : List TyField} {f : TyField} (hf : f ∈ fields) :
      Declares g (.object i fields) f
  | reference {i : NodeId} {d : Declaration} {args : List Ty} {bases : List Declaration} {body : Ty}
      {f : TyField} (hbody : g.target? i = some body) (h : Declares g body f) :
      Declares g (.reference i d args bases) f
  | intersection {i : NodeId} {members : List Ty} {m : Ty} {f : TyField} (hm : m ∈ members)
      (h : Declares g m f) : Declares g (.intersection i members) f

/-- The type is put together from object types by intersections and by references, of which at most
`n` are followed one after another. -/
inductive Graph.Shaped (g : Graph) : Nat → Ty → Prop
  | object {n : Nat} {i : NodeId} {fields : List TyField} : Shaped g n (.object i fields)
  | reference {n : Nat} {i : NodeId} {d : Declaration} {args : List Ty} {bases : List Declaration}
      {body : Ty} (hbody : g.target? i = some body) (h : Shaped g n body) :
      Shaped g (n + 1) (.reference i d args bases)
  | intersection {n : Nat} {i : NodeId} {members : List Ty} (h : ∀ m ∈ members, Shaped g n m) :
      Shaped g n (.intersection i members)

/-- The fields of the object types that a type is put together from, in the order in which these are
come to. -/
inductive Graph.Spreads (g : Graph) : Nat → Ty → List TyField → Prop
  | object {n : Nat} {i : NodeId} {fields : List TyField} : Spreads g n (.object i fields) fields
  | reference {n : Nat} {i : NodeId} {d : Declaration} {args : List Ty} {bases : List Declaration}
      {body : Ty} {all : List TyField} (hbody : g.target? i = some body) (h : Spreads g n body all) :
      Spreads g (n + 1) (.reference i d args bases) all
  | nil {n : Nat} {i : NodeId} : Spreads g n (.intersection i []) []
  | cons {n : Nat} {i : NodeId} {m : Ty} {members : List Ty} {all rest : List TyField}
      (h : Spreads g n m all) (hrest : Spreads g n (.intersection i members) rest) :
      Spreads g n (.intersection i (m :: members)) (all ++ rest)

theorem Graph.Spreads.shaped {g : Graph} {n : Nat} (h : g.Spreads n t all) : g.Shaped n t := by
  induction h with
  | object => exact .object
  | reference hbody _ ih => exact .reference hbody ih
  | nil => exact .intersection (by simp)
  | cons _ _ ih ihrest =>
    cases ihrest with
    | intersection hrest => exact .intersection (forall_mem_cons.2 ⟨ih, hrest⟩)

theorem Graph.Spreads.declares {g : Graph} {n : Nat} (h : g.Spreads n t all) (hf : f ∈ all) :
    g.Declares t f := by
  induction h with
  | object => exact .object hf
  | reference hbody _ ih => exact .reference hbody (ih hf)
  | nil => cases hf
  | cons _ _ ih ihrest =>
    obtain hf | hf := mem_append.1 hf
    · exact .intersection mem_cons_self (ih hf)
    · cases ihrest hf with
      | intersection hm h => exact .intersection (mem_cons_of_mem _ hm) h

theorem Graph.Declares.hasField {g : Graph} (h : g.Declares t f) : g.HasField t f := by
  induction h with
  | object hf => exact ⟨_, _, hf, Or.inl (.refl _)⟩
  | @reference i _ _ _ body _ hbody _ ih =>
    obtain ⟨j, fields, hf, hocc | hocc⟩ := ih
    · exact ⟨j, fields, hf, Or.inr ⟨i, body, hbody, hocc⟩⟩
    · exact ⟨j, fields, hf, Or.inr hocc⟩
  | intersection hm _ ih =>
    obtain ⟨j, fields, hf, hocc⟩ := ih
    exact ⟨j, fields, hf, hocc.imp_left (.intersection hm)⟩

/-! ## Both ways side by side -/

section

variable {g : Graph} {follow : FieldsAt} {merge : MergeAt} {n : Nat}

/-- Both ways fail alike, or both find a field for each name that the type spreads. -/
def MergersAgree (g : Graph) (n : Nat) (follow : FieldsAt) (merge : MergeAt) : Prop :=
  ∀ (t : Ty) (visiting : List NodeId),
    (∃ e, follow visiting t = .error e ∧
      ∀ {sofar before}, Selects sofar before → merge visiting sofar t = .error e) ∨
    ∃ all fs, g.Spreads n t all ∧ follow visiting t = .ok fs ∧ fs ⊆ all ∧
      firstNames fs = firstNames all ∧ ∀ {sofar before}, Selects sofar before →
        ∃ ms, merge visiting sofar t = .ok ms ∧ Selects ms (before ++ all)

mutual

theorem fieldsIn_agree (hf : MergersAgree g n follow merge) :
    MergersAgree g (n + 1) (fieldsIn g follow) (mergeFields g merge)
  | .object i fields, visiting => by
    refine .inr ⟨_, fields, .object, by rw [fieldsIn], Subset.refl _, rfl, fun h => ?_⟩
    refine ⟨_, by rw [mergeFields], fun f hf => ?_, names_foldl map_addField h.names⟩
    exact mem_append.2 ((mem_foldl mem_addField hf).imp_left (h.subset ·))
  | .reference i d args bases, visiting => by
    simp only [fieldsIn, mergeFields]
    split
    · exact .inl ⟨_, rfl, fun _ => rfl⟩
    · cases hbody : g.target? i with
      | none => exact .inl ⟨_, rfl, fun _ => rfl⟩
      | some body =>
        obtain herror | ⟨all, fs, hall, hok⟩ := hf body (i :: visiting)
        · exact .inl herror
        · exact .inr ⟨all, fs, .reference hbody hall, hok⟩
  | .intersection i members, visiting => by
    simp only [fieldsIn, mergeFields]
    split
    · exact .inl ⟨_, rfl, fun _ => rfl⟩
    · obtain ⟨e, herror⟩ | ⟨all, hall, hok⟩ := collectMembers_agree hf members (i :: visiting)
      · exact .inl ⟨e, (herror .nil).1, fun h => (herror h).2⟩
      · obtain ⟨⟨fs, hfs, hsubset, hnames⟩, -⟩ := hok .nil
        refine .inr ⟨all, fs, hall i, hfs, hsubset, ?_, fun h => (hok h).2⟩
        rw [firstNames, hnames]
        exact eraseDups_append_eraseDups [] _
  | .primitive .., _ | .literal .., _ | .union .., _ | .tuple .., _ | .array .., _
  | .deferred .., _ | .unrepresentable .., _ => by
    simp [fieldsIn, mergeFields]

theorem collectMembers_agree (hf : MergersAgree g n follow merge) :
    ∀ (ts : List Ty) (visiting : List NodeId),
    (∃ e, ∀ {sofar before}, Selects sofar before →
      collectMembers g follow visiting sofar ts = .error e ∧
        mergeMembers g merge visiting sofar ts = .error e) ∨
    ∃ all, (∀ i, g.Spreads (n + 1) (.intersection i ts) all) ∧
      ∀ {sofar before}, Selects sofar before →
        (∃ fs, collectMembers g follow visiting sofar ts = .ok fs ∧ Selects fs (before ++ all)) ∧
        ∃ ms, mergeMembers g merge visiting sofar ts = .ok ms ∧ Selects ms (before ++ all)
  | [], visiting => .inr ⟨[], fun _ => .nil, fun h => by simpa [collectMembers, mergeMembers] using h⟩
  | t :: ts, visiting => by
    simp only [collectMembers, mergeMembers]
    obtain ⟨e, hfields, hmerge⟩ | ⟨all, fs, hall, hfields, hsubset, hnames, hmerge⟩ :=
      fieldsIn_agree hf t visiting
    · refine .inl ⟨e, fun h => ?_⟩
      rw [hfields, hmerge h]
      exact ⟨rfl, rfl⟩
    rw [hfields]
    obtain ⟨e, hrest⟩ | ⟨rest, hspreads, hrest⟩ := collectMembers_agree hf ts visiting
    · refine .inl ⟨e, fun h => ?_⟩
      obtain ⟨ms, hms, hselects⟩ := hmerge h
      rw [hms]
      exact ⟨(hrest (h.put hsubset hnames)).1, (hrest hselects).2⟩
    · refine .inr ⟨all ++ rest, fun i => .cons hall (hspreads i), fun h => ?_⟩
      obtain ⟨ms, hms, hselects⟩ := hmerge h
      rw [hms, ← append_assoc]
      exact ⟨(hrest (h.put hsubset hnames)).1, (hrest hselects).2⟩

end

/-- By induction on the number of references that may be followed. -/
theorem fieldsWithin_agree : ∀ n : Nat, MergersAgree g n (fieldsWithin g n) (mergeWithin g n)
  | 0 => fun _ _ => .inl ⟨_, rfl, fun _ => rfl⟩
  | n + 1 => fieldsIn_agree (fieldsWithin_agree n)

theorem fieldsOf_declares (h : fieldsOf g t = some fs) :
    g.Shaped (g.targets.length + 1) t ∧ ∀ f ∈ fs, g.Declares t f := by
  unfold fieldsOf at h
  obtain ⟨e, herror, -⟩ | ⟨all, fs', hall, hok, hsubset, -⟩ :=
    fieldsWithin_agree (g := g) (g.targets.length + 1) t []
  · rw [herror] at h
    cases h
  · rw [hok] at h
    cases h
    exact ⟨hall.shaped, fun f hf => hall.declares (hsubset hf)⟩

theorem fieldsOf_occurs (h : fieldsOf g t = some fs) (hf : f ∈ fs) : g.HasField t f :=
  ((fieldsOf_declares h).2 f hf).hasField

theorem mergedFields_declares (h : mergedFields g t = some fs) (hf : f ∈ fs) : g.Declares t f := by
  unfold mergedFields at h
  obtain ⟨e, -, herror⟩ | ⟨all, -, hall, -, -, -, hmerge⟩ :=
    fieldsWithin_agree (g := g) (g.targets.length + 1) t []
  · rw [herror .nil] at h
    cases h
  · obtain ⟨ms, hok, hselects⟩ := hmerge .nil
    rw [hok] at h
    cases h
    exact hall.declares (hselects.subset hf)

end

/-- **The two ways to merge an intersection agree on names**, however references lead back to
themselves. Neither is ever cut off. Both find no fields, or both find fields with the same names: all
that the type spreads, each once, in the order of their first occurrence. -/
theorem mergers_agree (g : Graph) (i : NodeId) (members : List Ty) :
    (∀ n, g.targets.length < n →
      fieldsWithin g n [] (.intersection i members) ≠ .error .exhausted ∧
      mergeWithin g n [] [] (.intersection i members) ≠ .error .exhausted) ∧
    (fieldsOf g (.intersection i members) = none ∧
        mergedFields g (.intersection i members) = none ∨
      ∃ all fs ms, g.Spreads (g.targets.length + 1) (.intersection i members) all ∧
        fieldsOf g (.intersection i members) = some fs ∧
        mergedFields g (.intersection i members) = some ms ∧
        fs ⊆ all ∧ fs.map name = (all.map name).eraseDups ∧
        ms ⊆ all ∧ ms.map name = (all.map name).eraseDups ∧
        (fs.map name).Nodup) := by
  constructor
  · intro n hn
    obtain ⟨hfields, hmerge⟩ := fieldsWithin_ends g n (.intersection i members)
      (Nat.lt_of_lt_of_le g.unseen_keys hn)
    exact ⟨hfields, hmerge []⟩
  simp only [fieldsOf, mergedFields, fieldsWithin, mergeWithin, fieldsIn, mergeFields, contains_nil]
  obtain ⟨e, herror⟩ | ⟨all, hall, hok⟩ :=
    collectMembers_agree (fieldsWithin_agree g.targets.length) members [i]
  · obtain ⟨hfields, hmerge⟩ := herror .nil
    rw [hfields, hmerge]
    exact .inl ⟨rfl, rfl⟩
  · obtain ⟨⟨fs, hfields, hfs⟩, ms, hmerge, hms⟩ := hok .nil
    rw [hfields, hmerge]
    refine .inr ⟨all, fs, ms, hall i, rfl, rfl, hfs.subset, hfs.names, hms.subset, hms.names, ?_⟩
    rw [hfs.names]
    exact nodup_eraseDups _

end Componentry
