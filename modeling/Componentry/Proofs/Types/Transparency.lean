import Componentry.Proofs.Types.Ending

/-!
# What the table of a comparison changes

A comparison takes a pair that it has met before to fit. On types that are trees this is meant to
change nothing: different ways through two trees come to different pairs, so no pair is met twice.

There is one exception. An intersection that has to fit an object type is tried member by member,
and then once more with its members merged; the merged fields have the types they had in the
members. A field that did not fit is met again there and taken to fit (`merged_meets_again`). So on
trees the table never turns a yes into a no, and it changes no answer if whatever is met again did
fit (`assignable_plain`).
-/

namespace Componentry

open List Componentry.Graph

variable {fields : List TyField} {t s : Ty} {n : NodeId} {cl : Clause}

variable {g : Graph}

/-- Looking at the first probe does not touch what the second looks at. -/
def Probe.Apart (g : Graph) : Probe → Probe → Prop
  | .pair t s, .pair t' s' => g.Apart t t' ∨ g.Apart s s'
  | .merged _ _, .pair _ _ => False
  | _, _ => True

/-- The probes of a clause do not touch one another, if the parts of the types do not. The fields of
a source are looked for by name, so they may. -/
theorem apart_clause (h : Clause.For g t s cl) (ht : (g.parts t).Pairwise g.Apart)
    (hs : (∀ i fields, s ≠ .object i fields) → (g.parts s).Pairwise g.Apart) :
    cl.probes.Pairwise (Probe.Apart g) := by
  cases h with
  | refused | primitive | sameDeclaration | classes | unwrapSource | unwrapTarget | arrays =>
    exact pairwise_singleton _ _
  | unionSource =>
    rw [pairwise_map]
    exact (hs (by simp)).imp Or.inr
  | unionTarget | intersectionTarget =>
    rw [pairwise_map]
    exact ht.imp Or.inl
  | @intersectionSource _ i ms =>
    refine pairwise_append.2 ⟨?_, ?_, ?_⟩
    · rw [pairwise_map]
      exact (hs (by simp)).imp Or.inr
    · cases mergedFields g (.intersection i ms) with
      | none => exact .nil
      | some fields => exact pairwise_singleton _ _
    · intro p hp q hq
      obtain ⟨m, -, rfl⟩ := mem_map.1 hp
      obtain ⟨fields, -, rfl⟩ := mem_map.1 hq
      trivial
  | arrayOfTuple =>
    rw [pairwise_map]
    exact (hs (by simp)).imp Or.inr
  | @tuples i j es fs =>
    rw [pairwise_map, pairwise_iff_getElem]
    intro k l hk hl hkl
    rw [getElem_zip, getElem_zip]
    exact .inl (pairwise_iff_getElem.1 ht k l _ _ hkl)
  | @objects i j fs gs =>
    have htypes : (fs.map TyField.type).Pairwise g.Apart := ht
    rw [pairwise_map] at htypes ⊢
    refine htypes.imp fun {f f'} hapart => ?_
    obtain ⟨b, hknown, -⟩ | ⟨e, -, -, hpair⟩ := fieldProbe_cases gs f
    · rw [hknown]
      trivial
    · obtain ⟨b, hknown, -⟩ | ⟨e', -, -, hpair'⟩ := fieldProbe_cases gs f'
      · rw [hpair, hknown]
        trivial
      · rw [hpair, hpair']
        exact .inl hapart

/-! ## What a comparison notes -/

/-- All numbers in a type are below `n`. -/
def Graph.Below (g : Graph) (s : Ty) (n : NodeId) : Prop := ∀ v, g.Inside s v → v.id < n

/-- Between two states of a comparison of `t` and `s`, pairs of nodes in them were noted, or pairs
with a new number. -/
structure Grew (g : Graph) (t s : Ty) (c c' : Comparison) : Prop where
  next : c.next ≤ c'.next
  seen : ∀ k ∈ c'.seen, k ∈ c.seen ∨ (∃ u, g.Inside t u ∧ k.1 = u.id) ∧
    ((∃ v, g.Inside s v ∧ k.2 = v.id) ∨ c.next ≤ k.2) ∧ k.2 < c'.next

section Frame

variable {t s t' s' : Ty} {c c₁ c' : Comparison}

theorem Grew.refl (c : Comparison) : Grew g t s c c := ⟨Nat.le_refl _, fun _ hk => Or.inl hk⟩

theorem Grew.trans (h : Grew g t s c c₁) (h' : Grew g t s c₁ c') : Grew g t s c c' := by
  refine ⟨Nat.le_trans h.next h'.next, fun k hk => ?_⟩
  obtain hk | ⟨hu, hv, hlt⟩ := h'.seen k hk
  · obtain hk | ⟨hu, hv, hlt⟩ := h.seen k hk
    · exact .inl hk
    · exact .inr ⟨hu, hv, Nat.lt_of_lt_of_le hlt h'.next⟩
  · exact .inr ⟨hu, hv.imp_right (Nat.le_trans h.next), hlt⟩

theorem Grew.inside (h : Grew g t' s' c c') (ht : g.Inside t t') (hs : g.Inside s s') :
    Grew g t s c c' := by
  refine ⟨h.next, fun k hk => (h.seen k hk).imp_right ?_⟩
  rintro ⟨⟨u, hu, hid⟩, hv, hlt⟩
  refine ⟨⟨u, ht.trans hu, hid⟩, hv.imp_left ?_, hlt⟩
  rintro ⟨v, hv, hid⟩
  exact ⟨v, hs.trans hv, hid⟩

theorem Graph.Below.inside (h : g.Below s n) (hs : g.Inside s s') : g.Below s' n :=
  fun v hv => h v (hs.trans hv)

theorem Graph.Below.mono {m : NodeId} (h : g.Below s n) (hnm : n ≤ m) : g.Below s m :=
  fun v hv => Nat.lt_of_lt_of_le (h v hv) hnm

theorem below_merged (h : ∀ f ∈ fields, g.Below f.type n) : g.Below (.object n fields) (n + 1) := by
  intro v hv
  obtain rfl | ⟨p, hp, hv⟩ := inside_cases hv
  · exact Nat.lt_succ_self n
  · obtain ⟨f, hf, rfl⟩ := mem_map.1 hp
    exact Nat.lt_succ_of_lt (h f hf v hv)

/-- What the comparison with a merged object type notes, as seen from the intersection. -/
theorem Grew.of_merged (hinside : ∀ f ∈ fields, g.Inside s f.type)
    (h : Grew g t (.object c.next fields) { c with next := c.next + 1 } c') : Grew g t s c c' := by
  refine ⟨Nat.le_of_succ_le h.next, fun k hk => (h.seen k hk).imp_right ?_⟩
  rintro ⟨hu, hv, hlt⟩
  refine ⟨hu, ?_, hlt⟩
  obtain ⟨v, hv, hid⟩ | hnew := hv
  · obtain rfl | ⟨p, hp, hv⟩ := inside_cases hv
    · exact .inr (Nat.le_of_eq hid.symm)
    · obtain ⟨f, hf, rfl⟩ := mem_map.1 hp
      exact .inl ⟨v, (hinside f hf).trans hv, hid⟩
  · exact .inr (Nat.le_of_succ_le hnew)

theorem Grew.note (hs : g.Below s c.next) :
    Grew g t s c { c with seen := (t.id, s.id) :: c.seen } := by
  refine ⟨Nat.le_refl _, fun k hk => ?_⟩
  obtain rfl | hk := mem_cons.1 hk
  · exact Or.inr ⟨⟨t, inside_self t, rfl⟩, Or.inl ⟨s, inside_self s, rfl⟩,
      hs s (inside_self s)⟩
  · exact Or.inl hk

end Frame

/-- A comparison notes nothing but pairs of nodes in its types, and pairs with a new number. -/
theorem grew_compareWithin : ∀ (n : Nat) {t s : Ty} {c c' : Comparison} {b : Bool},
    g.Below s c.next → Gives (compareWithin g n t s) c b c' → Grew g t s c c'
  | 0, t, s, c, c', b, _, h => absurd h not_gives_failure
  | n + 1, t, s, c, c', b, hs, h => by
    have h : Gives (compareStep g (compareWithin g n) t s) c b c' := h
    obtain hsettled | hrefused | hopen := settled_or t s
    · rw [compareStep_settled hsettled] at h
      obtain ⟨-, rfl⟩ := gives_pure.1 h
      exact .refl c
    · rw [compareStep_refused hrefused] at h
      obtain ⟨-, rfl⟩ := gives_pure.1 h
      exact .refl c
    · obtain ⟨-, -, rfl⟩ | ⟨-, hrun⟩ := (gives_compareStep_open hopen).1 h
      · exact .refl c'
      · refine (Grew.note hs).trans ?_
        -- each probe grows the table as long as the numbers of the source are given out
        refine Clause.run_induction
          (R := fun c c' => g.Below s c.next → Grew g t s c c') (fun c _ => .refl c)
          (fun h h' hs => (h hs).trans (h' (hs.mono (h hs).next))) ?_ hrun hs
        intro p hp c₁ b₁ c₂ hrun hs
        cases below_clause (for_clause t s) p hp with
        | known b =>
          obtain ⟨-, rfl⟩ := gives_pure.1 hrun
          exact .refl c₁
        | target ht =>
          exact (grew_compareWithin n hs hrun).inside (inside_part ht)
            (inside_self s)
        | source hs' =>
          exact (grew_compareWithin n (hs.inside (inside_part hs')) hrun).inside
            (inside_self t) (inside_part hs')
        | both ht hs' =>
          exact (grew_compareWithin n (hs.inside (inside_part hs')) hrun).inside
            (inside_part ht) (inside_part hs')
        | @merged _ _ fields _ hfields =>
          have hbelow : g.Below (.object c₁.next fields) (c₁.next + 1) :=
            below_merged fun f hf => hs.inside (inside_merged hfields hf)
          exact (grew_compareWithin n hbelow (gives_merged.1 hrun)).of_merged
            fun f hf => inside_merged hfields hf

/-! ## Comparisons of trees end -/

/-- What an intersection adds to the measure of a source, for the step to its merged members. -/
def Ty.extraStep : Ty → Nat
  | .intersection _ _ => 1
  | _ => 0

theorem Ty.extraStep_le (t : Ty) : t.extraStep ≤ 1 := by
  cases t <;> simp [Ty.extraStep]

theorem depth_merged {d : Nat} (h : g.Depth s d) (hfields : mergedFields g s = some fields)
    (i : NodeId) : g.Depth (.object i fields) d := by
  intro q u hq
  cases hq with
  | here => exact Nat.zero_le d
  | @inside _ p _ k q hpart hq =>
    obtain ⟨f, hf, rfl⟩ := mem_map.1 (mem_of_getElem? hpart)
    obtain ⟨j, fs, hmem, r, hr⟩ := (mergedFields_declares hfields hf).bears
    obtain ⟨l, hl⟩ := at_part (g := g) (t := .object j fs) (mem_map_of_mem hmem)
    have hplace := h ((hr.append hl).append hq)
    simp only [length_append, length_cons, length_nil] at hplace ⊢
    omega

/-- The plain comparison has an answer within a bound on the depths. -/
theorem plain_within : ∀ (n : Nat) {dt ds : Nat} {t s : Ty}, g.Depth t dt → g.Depth s ds →
    2 * (dt + ds) + s.extraStep < n → ∃ b, plainWithin g n t s = some b
  | 0, dt, ds, t, s, _, _, hn => absurd hn (Nat.not_lt_zero _)
  | n + 1, dt, ds, t, s, ht, hs, hn => by
    have hprobe : ∀ p ∈ (clause g t s).probes, ∃ b, p.eval (plainWithin g n) = some b := by
      intro p hp
      cases below_clause (for_clause t s) p hp with
      | known b => exact ⟨b, rfl⟩
      | target ht' =>
        obtain ⟨d, rfl, hd⟩ := ht.part ht'
        exact plain_within n hd hs (by omega)
      | @source s' hs' =>
        obtain ⟨d, rfl, hd⟩ := hs.part hs'
        have := s'.extraStep_le
        exact plain_within n ht hd (by omega)
      | @both t' s' ht' hs' =>
        obtain ⟨d, rfl, hd⟩ := ht.part ht'
        obtain ⟨e, rfl, he⟩ := hs.part hs'
        have := s'.extraStep_le
        exact plain_within n hd he (by omega)
      | @merged i ms fields hinter hfields =>
        -- merging makes the source no smaller, but no intersection comes back at the root
        have hextra : s.extraStep = 1 := by rw [hinter]; rfl
        refine plain_within n ht (depth_merged hs hfields 0) ?_
        rw [hextra] at hn
        show 2 * (dt + ds) + 0 < n
        omega
    show ∃ b, plainStep g (plainWithin g n) t s = some b
    obtain hsettled | hrefused | hopen := settled_or t s
    · exact ⟨true, plainStep_settled hsettled⟩
    · exact ⟨false, plainStep_refused hrefused⟩
    · rw [plainStep_open (plainWithin_numberless n) hopen]
      exact evalAll_total hprobe

/-! ## When the table changes nothing -/

/-- Where an object type in `t` shares a field with `fields`, the field fits. -/
def FieldsFit (g : Graph) (t : Ty) (fields : List TyField) : Prop :=
  ∀ i fs f e, g.Inside t (.object i fs) → f ∈ fs → findField fields f.name = some e →
    (e.optional && !f.optional) = false → Fits g f.type e.type

/-- Where an object type of the target shares a field with the merged members of an intersection in
the source, the field fits. -/
def MergesFit (g : Graph) (target source : Ty) : Prop :=
  ∀ i ms fields, g.Inside source (.intersection i ms) →
    mergedFields g (.intersection i ms) = some fields → FieldsFit g target fields

/-- No node in `t` was met together with the number. -/
def Unmet (g : Graph) (c : Comparison) (t : Ty) (x : NodeId) : Prop :=
  ∀ u, g.Inside t u → (u.id, x) ∉ c.seen

/-- The table cannot change the answer for a pair: the pair fits anyway, or it is a pair of trees
that have not been met, or the source is a merged object type that has not been met. -/
inductive Sure (g : Graph) (c : Comparison) (t : Ty) : Ty → Prop where
  | fits {s : Ty} (h : Fits g t s) : Sure g c t s
  | trees {s : Ty} (ht : g.IsTree t) (hs : g.IsTree s) (hm : MergesFit g t s)
      (hc : ∀ v, g.Inside s v → Unmet g c t v.id) : Sure g c t s
  | merged {i : NodeId} {fields : List TyField} (ht : g.IsTree t) (hm : FieldsFit g t fields)
      (hc : Unmet g c t i) : Sure g c t (.object i fields)

/-- The table cannot change the answer to a probe. -/
def Probe.Sure (g : Graph) (c : Comparison) : Probe → Prop
  | .known _ => True
  | .pair t s => g.Below s c.next ∧ Componentry.Sure g c t s
  | .merged t fields => g.IsTree t ∧ FieldsFit g t fields ∧ ∀ f ∈ fields, g.Below f.type c.next

/-- All numbers in the table have been given out. -/
def Comparison.Bounded (c : Comparison) : Prop := ∀ k ∈ c.seen, k.2 < c.next

section Stays

variable {t s t' s' : Ty} {c c' : Comparison} {x : NodeId}

theorem FieldsFit.inside (h : FieldsFit g t fields) (ht : g.Inside t t') : FieldsFit g t' fields :=
  fun i fs f e ho => h i fs f e (ht.trans ho)

theorem MergesFit.inside (h : MergesFit g t s) (ht : g.Inside t t') (hs : g.Inside s s') :
    MergesFit g t' s' :=
  fun i ms fields hi hfields => (h i ms fields (hs.trans hi) hfields).inside ht

theorem Unmet.inside (h : Unmet g c t x) (ht : g.Inside t t') : Unmet g c t' x :=
  fun u hu => h u (ht.trans hu)

/-- A comparison elsewhere does not meet the number. -/
theorem Unmet.grew (h : Unmet g c t x) (hx : x < c.next) (hgrew : Grew g t' s' c c')
    (hapart : g.Apart t' t ∨ ∀ v, g.Inside s' v → v.id ≠ x) : Unmet g c' t x := by
  intro u hu hmem
  obtain hold | ⟨⟨u', hu', hid⟩, hv, -⟩ := hgrew.seen _ hmem
  · exact h u hu hold
  · obtain hapart | hapart := hapart
    · exact hapart hu' hu hid.symm
    · obtain ⟨v, hv, hid'⟩ | hnew := hv
      · exact hapart v hv hid'.symm
      · exact absurd hx (Nat.not_lt_of_le hnew)

theorem Sure.grew (h : Sure g c t s) (hs : g.Below s c.next) (hgrew : Grew g t' s' c c')
    (hapart : g.Apart t' t ∨ g.Apart s' s) : Sure g c' t s := by
  have hunmet : ∀ {v : Ty}, g.Inside s v → Unmet g c t v.id → Unmet g c' t v.id := by
    intro v hv hc
    refine hc.grew (hs v hv) hgrew (hapart.imp_right fun hapart w hw => ?_)
    exact hapart hw hv
  cases h with
  | fits h => exact .fits h
  | trees ht htree hm hc => exact .trees ht htree hm fun v hv => hunmet hv (hc v hv)
  | merged ht hm hc => exact .merged ht hm (hunmet (inside_self _) hc)

/-- Noting a pair does not meet what is below it. -/
theorem Unmet.note (h : Unmet g c t x)
    (hne : x ≠ s.id ∨ ∀ u, g.Inside t u → u.id ≠ t'.id) :
    Unmet g { c with seen := (t'.id, s.id) :: c.seen } t x := by
  intro u hu hmem
  obtain heq | hmem := mem_cons.1 hmem
  · obtain ⟨hid, hid'⟩ := Prod.mk.inj heq
    exact hne.elim (fun hx => hx hid') fun hu' => hu' u hu hid
  · exact h u hu hmem

theorem Grew.bounded (h : Grew g t s c c') (hc : c.Bounded) : c'.Bounded := by
  intro k hk
  obtain hk | ⟨-, -, hlt⟩ := h.seen k hk
  · exact Nat.lt_of_lt_of_le (hc k hk) h.next
  · exact hlt

end Stays

/-! ## The probes of a pair are sure -/

section Probes

variable {t s : Ty} {c : Comparison}

theorem sure_probes_trees (ht : g.IsTree t) (hs : g.IsTree s) (hm : MergesFit g t s)
    (hc : ∀ v, g.Inside s v → Unmet g c t v.id) (hbelow : g.Below s c.next) :
    ∀ p ∈ (clause g t s).probes, p.Sure g { c with seen := (t.id, s.id) :: c.seen } := by
  intro p hp
  cases below_clause (for_clause t s) p hp with
  | known b => trivial
  | @target t' ht' =>
    have hin := inside_part ht'
    refine ⟨hbelow, .trees (ht.part ht') hs (hm.inside hin (inside_self s)) ?_⟩
    intro v hv
    -- the pair that is noted has the root of the target, which is not below itself
    exact ((hc v hv).inside hin).note (Or.inr fun u hu => ht.root_ne ht' hu)
  | @source s' hs' =>
    have hin := inside_part hs'
    refine ⟨hbelow.inside hin, .trees ht (hs.part hs') (hm.inside (inside_self t) hin) ?_⟩
    intro v hv
    exact (hc v (hin.trans hv)).note (Or.inl (hs.root_ne hs' hv))
  | @both t' s' ht' hs' =>
    have hin := inside_part ht'
    have hin' := inside_part hs'
    refine ⟨hbelow.inside hin', .trees (ht.part ht') (hs.part hs') (hm.inside hin hin') ?_⟩
    intro v hv
    exact ((hc v (hin'.trans hv)).inside hin).note (.inl (hs.root_ne hs' hv))
  | @merged i ms fields hinter hfields =>
    refine ⟨ht, ?_, fun f hf => hbelow.inside (inside_merged hfields hf)⟩
    subst hinter
    exact hm i ms fields (inside_self _) hfields

theorem sure_probes_merged {i : NodeId} (ht : g.IsTree t) (hm : FieldsFit g t fields)
    (hc : Unmet g c t i) (hbelow : g.Below (.object i fields) c.next) :
    ∀ p ∈ (clause g t (.object i fields)).probes,
      p.Sure g { c with seen := (t.id, i) :: c.seen } := by
  intro p hp
  obtain ⟨b, rfl⟩ | ⟨t', ht', rfl⟩ | ⟨j, fs, f, e, rfl, hf, he, hclash, rfl⟩ :=
    probes_object (for_clause t (.object i fields)) p hp
  · trivial
  · have hin := inside_part ht'
    refine ⟨hbelow, .merged (ht.part ht') (hm.inside hin) ?_⟩
    exact (hc.inside hin).note (s := .object i fields) (Or.inr fun u hu => ht.root_ne ht' hu)
  · refine ⟨hbelow.inside (inside_part ?_), .fits ?_⟩
    · exact mem_map_of_mem (findField_mem he)
    · exact hm j fs f e (inside_self _) hf he hclash

end Probes

/-! ## Exact answers -/

/-- The comparison gives the plain answer to pairs that are sure, and notes what it may. -/
structure Exact (g : Graph) (compare : CompareTypes) (plain : Ty → Ty → Option Bool) : Prop where
  numberless : Numberless plain
  answer : ∀ {t s : Ty} {c c' : Comparison} {b b' : Bool}, c.Bounded → g.Below s c.next →
    Sure g c t s → Gives (compare t s) c b c' → plain t s = some b' → b' = b
  grew : ∀ {t s : Ty} {c c' : Comparison} {b : Bool}, g.Below s c.next →
    Gives (compare t s) c b c' → Grew g t s c c'

section Runs

variable {compare : CompareTypes} {plain : Ty → Ty → Option Bool} {c c' : Comparison} {b b' : Bool}

/-- A merged object type has a number that was not met. -/
theorem Probe.Sure.of_merged (hc : c.Bounded) (h : (Probe.merged t fields).Sure g c) :
    g.Below (.object c.next fields) (c.next + 1) ∧
      Componentry.Sure g { c with next := c.next + 1 } t (.object c.next fields) := by
  obtain ⟨ht, hm, hfields⟩ := h
  refine ⟨below_merged hfields, .merged ht hm fun u _ hmem => ?_⟩
  exact absurd (hc _ hmem) (Nat.lt_irrefl _)

theorem Exact.probe (hexact : Exact g compare plain) {p : Probe} (hc : c.Bounded) (hp : p.Sure g c)
    (h : Gives (p.run compare) c b c') (heval : p.eval plain = some b') : b' = b := by
  cases p with
  | known k =>
    cases heval
    exact (gives_pure.1 h).1
  | pair t s => exact hexact.answer hc hp.1 hp.2 h heval
  | merged t fields =>
    obtain ⟨hbelow, hsure⟩ := Probe.Sure.of_merged hc hp
    -- the plain comparison does not look at the number that the table gives out
    rw [Probe.eval, hexact.numberless t 0 c.next] at heval
    have hbounded : Comparison.Bounded { c with next := c.next + 1 } :=
      fun k hk => Nat.lt_succ_of_lt (hc k hk)
    exact hexact.answer hbounded hbelow hsure (gives_merged.1 h) heval

/-- After a probe the numbers in the table are still given out, and later probes still sure. -/
theorem Exact.stays (hexact : Exact g compare plain) {p : Probe} (hc : c.Bounded) (hp : p.Sure g c)
    (h : Gives (p.run compare) c b c') :
    c'.Bounded ∧ ∀ q : Probe, p.Apart g q → q.Sure g c → q.Sure g c' := by
  have hmerged : ∀ {t : Ty} {fields : List TyField}, c.next ≤ c'.next →
      (Probe.merged t fields).Sure g c → (Probe.merged t fields).Sure g c' := by
    intro t fields hnext ⟨ht, hm, hfields⟩
    exact ⟨ht, hm, fun f hf => (hfields f hf).mono hnext⟩
  cases p with
  | known k =>
    obtain ⟨-, rfl⟩ := gives_pure.1 h
    exact ⟨hc, fun q _ hq => hq⟩
  | pair t s =>
    have hgrew := hexact.grew hp.1 h
    refine ⟨hgrew.bounded hc, fun q hapart hq => ?_⟩
    cases q with
    | known k => trivial
    | pair t' s' => exact ⟨hq.1.mono hgrew.next, hq.2.grew hq.1 hgrew hapart⟩
    | merged t' fields => exact hmerged hgrew.next hq
  | merged t fields =>
    obtain ⟨hbelow, -⟩ := Probe.Sure.of_merged hc hp
    have hgrew := hexact.grew hbelow (gives_merged.1 h)
    have hnext : c.next ≤ c'.next := Nat.le_of_succ_le hgrew.next
    refine ⟨hgrew.bounded fun k hk => Nat.lt_succ_of_lt (hc k hk), fun q hapart hq => ?_⟩
    cases q with
    | known k => trivial
    | pair t' s' => exact absurd hapart id
    | merged t' fields' => exact hmerged hnext hq

/-- Probes that are sure and do not touch one another are answered plainly, one after the other. -/
theorem Exact.run (hexact : Exact g compare plain) {d : Bool} : ∀ {ps : List Probe}
    {c c' : Comparison} {b b' : Bool}, c.Bounded → (∀ p ∈ ps, p.Sure g c) →
    ps.Pairwise (Probe.Apart g) → Gives ((Clause.mk d ps).run compare) c b c' →
    Probe.evalAll plain d ps = some b' → b' = b
  | [], c, c', b, b', _, _, _, h, heval => by
    obtain ⟨rfl, -⟩ := gives_run_nil.1 h
    exact (Option.some.inj heval).symm
  | p :: ps, c, c', b, b', hc, hps, hapart, h, heval => by
    obtain ⟨hp, hps⟩ := forall_mem_cons.1 hps
    obtain ⟨hfirst, hapart⟩ := pairwise_cons.1 hapart
    obtain ⟨b₁, hb₁, heval⟩ := Option.bind_eq_some_iff.1 heval
    obtain ⟨rfl, hrun⟩ | ⟨c₁, hrun, hruns⟩ := gives_run_cons.1 h
    · obtain rfl := hexact.probe hc hp hrun hb₁
      rw [if_pos rfl] at heval
      exact (Option.some.inj heval).symm
    · obtain rfl := hexact.probe hc hp hrun hb₁
      rw [if_neg (by cases d <;> simp)] at heval
      obtain ⟨hc₁, hstays⟩ := hexact.stays hc hp hrun
      exact hexact.run hc₁ (fun q hq => hstays q (hfirst q hq) (hps q hq)) hapart hruns heval

end Runs

/-- The answer for a pair that is sure is the plain one. By induction on the steps that may stand
inside one another. -/
theorem exact_compareWithin : ∀ n m : Nat, Exact g (compareWithin g n) (plainWithin g m)
  | 0, m =>
    { numberless := plainWithin_numberless m
      answer := fun _ _ _ h _ => absurd h not_gives_failure
      grew := fun hs h => grew_compareWithin 0 hs h }
  | n + 1, 0 =>
    { numberless := plainWithin_numberless 0
      answer := fun _ _ _ _ h => by cases h
      grew := fun hs h => grew_compareWithin (n + 1) hs h }
  | n + 1, m + 1 =>
    { numberless := plainWithin_numberless (m + 1)
      grew := fun hs h => grew_compareWithin (n + 1) hs h
      answer := by
        intro t s c c' b b' hc hbelow hsure h hplain
        have hplain' : plainStep g (plainWithin g m) t s = some b' := hplain
        have hstep : Gives (compareStep g (compareWithin g n) t s) c b c' := h
        have hbounded := (Grew.note (t := t) hbelow).bounded hc
        have hexact := exact_compareWithin n m
        obtain hsettled | hrefused | hopen := settled_or t s
        · rw [plainStep_settled hsettled] at hplain'
          rw [compareStep_settled hsettled] at hstep
          rw [← (gives_pure.1 hstep).1]
          exact (Option.some.inj hplain').symm
        · rw [plainStep_refused hrefused] at hplain'
          rw [compareStep_refused hrefused] at hstep
          rw [← (gives_pure.1 hstep).1]
          exact (Option.some.inj hplain').symm
        · rw [plainStep_open (plainWithin_numberless m) hopen] at hplain'
          rw [gives_compareStep_open hopen] at hstep
          cases hsure with
          | fits hfits =>
            -- the pair may have been met, but then the yes of the table is the plain answer
            obtain ⟨k, hk⟩ := hfits
            rw [compareWithin_of_plain (n + 1) hk h]
            exact plainWithin_unique hplain hk
          | trees ht hs hm hunmet =>
            obtain ⟨hseen, -⟩ | ⟨-, hrun⟩ := hstep
            · have hself := hunmet s (inside_self s) t (inside_self t)
              exact absurd hseen hself
            · exact hexact.run hbounded (sure_probes_trees ht hs hm hunmet hbelow)
                (apart_clause (for_clause t s) ht.parts_apart fun _ => hs.parts_apart)
                hrun hplain'
          | @merged i fields ht hm hunmet =>
            obtain ⟨hseen, -⟩ | ⟨-, hrun⟩ := hstep
            · exact absurd hseen (hunmet t (inside_self t))
            · refine hexact.run hbounded (sure_probes_merged ht hm hunmet hbelow)
                (apart_clause (for_clause t _) ht.parts_apart fun hne => ?_) hrun hplain'
              exact absurd rfl (hne i fields) }

/-! ## The answers for trees -/

theorem measure_lt_compareBound (g : Graph) (target source : Ty) :
    2 * ((target.size + g.size) + (source.size + g.size)) + source.extraStep <
      compareBound g target source := by
  have hextra := source.extraStep_le
  let n := g.size + target.size + source.size + 2
  have hmeasure : 2 * ((target.size + g.size) + (source.size + g.size)) + source.extraStep <
      8 * n := by omega
  calc
    _ < 8 * n := hmeasure
    _ ≤ n ^ 3 * n := Nat.mul_le_mul_right n (Nat.pow_le_pow_left (Nat.le_add_left 2 _) 3)
    _ = compareBound g target source := (Nat.pow_succ ..).symm

/-- Both comparisons of two trees have an answer. A plain yes is a yes, and the answers are equal if
whatever is met again did fit. -/
theorem answers_of_trees {target source : Ty} (ht : g.IsTree target) (hs : g.IsTree source) :
    ∃ plain tabled c', (∀ n, compareBound g target source ≤ n →
        plainWithin g n target source = some plain) ∧
      Gives (compareWithin g (compareBound g target source) target source) ⟨[], g.next⟩ tabled c' ∧
      (plain = true → tabled = true) ∧ (MergesFit g target source → tabled = plain) := by
  obtain ⟨plain, hplain⟩ :=
    plain_within _ ht.depth hs.depth (measure_lt_compareBound g target source)
  obtain ⟨tabled, c', hrun⟩ := compareWithin_ends g target source
  refine ⟨plain, tabled, c', fun n hn => plainWithin_le hn hplain, hrun, ?_, ?_⟩
  · rintro rfl
    exact compareWithin_of_plain _ hplain hrun
  · intro hm
    have hsure : Sure g ⟨[], g.next⟩ target source :=
      .trees ht hs hm fun _ _ _ _ hmem => absurd hmem not_mem_nil
    exact ((exact_compareWithin _ _).answer (fun _ hk => absurd hk not_mem_nil)
      (fun _ hv => hs.numbered hv) hsure hrun hplain).symm

/-- Assignability of trees against the plain comparison. The table never loses a yes, and it changes
nothing if the fields that an object type of the target shares with a merged intersection of the
source fit. A target that is not known has its answer before the comparison starts. -/
theorem assignable_plain (g : Graph) (target source : Ty) (ht : g.IsTree target)
    (hs : g.IsTree source) :
    ∃ plain tabled : Bool,
      (∀ n, compareBound g target source ≤ n → plainWithin g n target source = some plain) ∧
      assignable? g target source = some tabled ∧
      (target.isUnknown = true → tabled = false ∧ plain = source.isBottom) ∧
      (target.isUnknown = false → (plain = true → tabled = true) ∧
        (MergesFit g target source → tabled = plain)) := by
  obtain ⟨plain, tabled, c', hplain, hrun, hmono, hexact⟩ := answers_of_trees ht hs
  unfold assignable?
  cases hunknown : target.isUnknown with
  | false =>
    refine ⟨plain, tabled, hplain, ?_, by simp, fun _ => ⟨hmono, hexact⟩⟩
    rw [if_neg (by simp), show _ = some (tabled, c') from hrun]
    rfl
  | true =>
    refine ⟨plain, false, hplain, rfl, fun _ => ⟨rfl, ?_⟩, by simp⟩
    have hstep := hplain (compareBound g target source + 1) (Nat.le_succ _)
    have htop : target.isTop = false := by
      cases target <;> first | rfl | cases hunknown
    have hstep : plainStep g _ target source = some plain := hstep
    unfold plainStep at hstep
    rw [htop, hunknown] at hstep
    cases hbottom : source.isBottom with
    | true => simpa [hbottom] using hstep.symm
    | false => simpa [hbottom] using hstep.symm

/-- A graph of eight nodes, without references. -/
def eightNodes : Graph := ⟨8, []⟩

/-- The type of a lamp with a name and, if `dimmed`, a level. -/
def lampType (dimmed : Bool) : Ty :=
  let name : TyField := .mk "name" (.primitive 1 "string") false
  let level : TyField := .mk "level" (.primitive 2 "number") false
  .object 0 (if dimmed then [name, level] else [name])

/-- An intersection of a type with a name, which is a text if `textual`, and a type with a level. -/
def splitLamp (textual : Bool) : Ty :=
  .intersection 3
    [.object 4 [.mk "name" (.primitive 5 (if textual then "string" else "boolean")) false],
     .object 6 [.mk "level" (.primitive 7 "number") false]]

theorem isTree_lampType (dimmed : Bool) : eightNodes.IsTree (lampType dimmed) :=
  isTree_of_nodup rfl _ (by cases dimmed <;> decide) (by cases dimmed <;> decide)

theorem isTree_splitLamp (textual : Bool) : eightNodes.IsTree (splitLamp textual) :=
  isTree_of_nodup rfl _ (by cases textual <;> decide) (by cases textual <;> decide)

theorem mergesFit_lamp : MergesFit eightNodes (lampType true) (splitLamp true) := by
  intro i ms fields hi hfields j fs f e hj hf he _
  have hfits : ∀ k l name, Fits eightNodes (.primitive k name) (.primitive l name) := by
    intro k l name
    exact ⟨1, plainStep_settled (.inr (.inr ⟨rfl, rfl, by simp [Ty.same]⟩))⟩
  have hi := inside_pieces rfl hi
  have hj := inside_pieces rfl hj
  -- one node of the source is an intersection, and one node of the target an object type
  simp only [splitLamp, if_true, Ty.pieces, Ty.piecesAll, Ty.piecesFields, append_nil,
    cons_append, nil_append, mem_cons, Ty.intersection.injEq, reduceCtorEq,
    not_mem_nil, or_self, or_false] at hi
  simp only [lampType, if_true, Ty.pieces, Ty.piecesFields, append_nil, cons_append,
    nil_append, mem_cons, Ty.object.injEq, reduceCtorEq, not_mem_nil, or_self,
    or_false] at hj
  obtain ⟨rfl, rfl⟩ := hi
  obtain ⟨rfl, rfl⟩ := hj
  obtain rfl : _ = fields := Option.some.inj hfields
  simp only [mem_cons, not_mem_nil, or_false] at hf
  obtain rfl | rfl := hf
  · cases he
    exact hfits _ _ _
  · cases he
    exact hfits _ _ _

/-- A lamp in two halves: neither half fits, but all of it does. -/
theorem assignable_plain_lamp :
    eightNodes.IsTree (lampType true) ∧ eightNodes.IsTree (splitLamp true) ∧
      MergesFit eightNodes (lampType true) (splitLamp true) ∧
      assignable? eightNodes (lampType true) (splitLamp true) = some true ∧
      plainWithin eightNodes (compareBound eightNodes (lampType true) (splitLamp true))
        (lampType true) (splitLamp true) = some true := by
  have ht := isTree_lampType true
  have hs := isTree_splitLamp true
  obtain ⟨plain, tabled, hplain, htabled, -, hknown⟩ :=
    assignable_plain eightNodes (lampType true) (splitLamp true) ht hs
  have hbound := hplain _ (Nat.le_refl _)
  obtain rfl : tabled = plain := (hknown rfl).2 mergesFit_lamp
  have hyes : assignable? eightNodes (lampType true) (splitLamp true) = some true := by
    decide +kernel
  obtain rfl : tabled = true := Option.some.inj (htabled.symm.trans hyes)
  exact ⟨ht, hs, mergesFit_lamp, hyes, hbound⟩

/-- A name that does not fit is met again when the halves are merged, and taken to fit: the table
says yes where the plain comparison says no. -/
theorem merged_meets_again :
    eightNodes.IsTree (lampType false) ∧ eightNodes.IsTree (splitLamp false) ∧
      assignable? eightNodes (lampType false) (splitLamp false) = some true ∧
      ∀ n, 4 ≤ n → plainWithin eightNodes n (lampType false) (splitLamp false) = some false := by
  refine ⟨isTree_lampType false, isTree_splitLamp false, by decide +kernel, fun n hn => ?_⟩
  exact plainWithin_le hn (by decide +kernel)

end Componentry
