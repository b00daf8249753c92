import Componentry.Metadata.Omission
import Componentry.Proofs.Guard.Alike
import Componentry.Proofs.Types.Comparison
import Componentry.Proofs.Types.Ending
import Componentry.Proofs.Types.Nodes

/-!
# Guards that add nothing

A class omits the guard of its instance if the type that its superclass declares is assignable to
its own: every value that passes the guard of the superclass should pass its own guard.

This does not hold of every comparison that succeeds. A pair of nodes that has been met before is
taken to fit, also if it failed, so a failure inside a choice is forgotten; an optional field that
the source lacks is taken to fit, but a value may have the field; and a reference that leads only to
itself is taken to fit, but no value passes its guard. Where the comparison keeps clear of all three
(`Straight`), the values of the source are values of the target (`sat_of_compared`), and the omitted
guard loses no check (`omitted_guard_accepts`). Guards follow names only so deep. The class may need
more names than the superclass, at most `k` at each level of the value.
-/

namespace Componentry

open List

variable {t s b : Ty} {g : Graph} {i : NodeId} {gs : List TyField} {ps : List (Ty × Ty)}

/-! ## Pairs that are compared -/

theorem Graph.unwrap?_some (h : g.unwrap? t = some b) :
    ∃ i d args bases, t = .reference i d args bases ∧ d.kind ≠ .classDecl ∧
      g.target? i = some b := by
  cases t with
  | reference i d args bases =>
    unfold Graph.unwrap? at h
    dsimp only at h
    split at h
    · cases h
    · next hk => exact ⟨i, d, args, bases, rfl, by simpa [Declaration.isClass] using hk, h⟩
  | _ => cases h

section Pairs

variable {g : Graph} {target source : Ty}

theorem Graph.Covers.part {p : Ty} (h : g.Covers target t) (hp : p ∈ g.parts t) :
    g.Covers target p := by
  obtain hpart | ⟨i, hbody⟩ := Graph.Part.of_parts hp
  · exact fun u hu => h u (hu.trans hpart)
  · exact g.covers_target hbody

theorem demands?_covers (ht : g.Covers target t) (hs : g.Covers source s)
    (h : demands? g t s = some ps) : ∀ q ∈ ps, g.Covers target q.1 ∧ g.Covers source q.2 := by
  rintro ⟨t', s'⟩ hq
  rw [demands?_eq] at h
  obtain ⟨-, hpairs, -⟩ := Clause.demands_cases h
  cases below_clause (for_clause t s) _ (hpairs _ hq) with
  | target ht' => exact ⟨ht.part ht', hs⟩
  | source hs' => exact ⟨ht, hs.part hs'⟩
  | both ht' hs' => exact ⟨ht.part ht', hs.part hs'⟩

/-- The pairs that a comparison comes to occur in the graphs of the two types. -/
theorem Compared.covers (h : Compared g target source t s) :
    g.Covers target t ∧ g.Covers source s := by
  induction h with
  | root => exact ⟨fun u hu => .inl hu, fun u hu => .inl hu⟩
  | step _ _ hps hq ih => exact demands?_covers ih.1 ih.2 hps _ hq

end Pairs

/-! ## Values of a type that fits -/

/-- A type comes to its shape through at most `k` references that follow one another. -/
inductive Graph.Grounded (g : Graph) : Nat → Ty → Prop where
  | meet {k : Nat} {i : NodeId} {members : List Ty} (h : ∀ m ∈ members, Grounded g k m) :
      Grounded g k (.intersection i members)
  | body {k : Nat} {t b : Ty} (hb : g.unwrap? t = some b) (h : Grounded g k b) :
      Grounded g (k + 1) t
  | shape {k : Nat} {t : Ty} (ht : ∀ i members, t ≠ .intersection i members)
      (hb : g.unwrap? t = none) : Grounded g k t

theorem Graph.Grounded.follow {k : Nat} (h : g.Grounded k t) (hb : g.unwrap? t = some b) :
    ∃ l, k = l + 1 ∧ g.Grounded l b := by
  cases h with
  | meet _ => cases hb
  | shape _ hnone =>
    rw [hb] at hnone
    cases hnone
  | @body l _ b' hb' h =>
    rw [hb] at hb'
    cases hb'
    exact ⟨l, rfl, h⟩

theorem Graph.Grounded.member {k : Nat} {members : List Ty}
    (h : g.Grounded k (.intersection i members)) : ∀ m ∈ members, g.Grounded k m := by
  cases h with
  | meet h => exact h
  | body hb _ => cases hb
  | shape hno _ => exact absurd rfl (hno _ _)

theorem Ty.sat_of_unwrap {uidOf : Declaration → String} {n : Nat} {v : Value}
    (hb : g.unwrap? t = some b) (h : t.Sat g uidOf n v) : ∃ m, n = m + 1 ∧ b.Sat g uidOf m v := by
  obtain ⟨i, d, args, bases, rfl, hk, htarget⟩ := g.unwrap?_some hb
  rw [Ty.sat_reference, if_neg hk, htarget] at h
  cases n with
  | zero => exact h.elim
  | succ n => exact ⟨n, rfl, h⟩

theorem Ty.sat_of_body {uidOf : Declaration → String} {n : Nat} {v : Value}
    (hb : g.unwrap? t = some b) (h : b.Sat g uidOf n v) : t.Sat g uidOf (n + 1) v := by
  obtain ⟨i, d, args, bases, rfl, hk, htarget⟩ := g.unwrap?_some hb
  rw [Ty.sat_reference, if_neg hk, htarget]
  exact h

/-- What the comparison of two types has to keep clear of, for pairs that are not settled at once:
a choice, an optional field that the source lacks, and references that lead only to one another. -/
structure Straight (g : Graph) (k : Nat) (target source : Ty) : Prop where
  noChoice : ∀ {t s : Ty}, Compared g target source t s → ¬ Settled t s → ¬ HasChoice t s
  present : ∀ {i j : NodeId} {fs gs : List TyField},
    Compared g target source (.object i fs) (.object j gs) →
    ¬ Settled (.object i fs) (.object j gs) →
      ∀ f ∈ fs, (findField gs f.name).isSome = true
  grounded : ∀ {t s : Ty}, Compared g target source t s → ¬ Settled t s → g.Grounded k t

section Fits

variable {g : Graph} {uidOf : Declaration → String} {target source : Ty} {n : Nat} {v : Value}

/-- A pair that is settled, if types that are the same have the same values. The source is not
`any`, which fits everything. -/
theorem sat_of_settled (hany : ∀ i, s ≠ .primitive i "any")
    (hsame : t.same s = true → t.Sat g uidOf n v) (h : Settled t s) (hsat : s.Sat g uidOf n v) :
    t.Sat g uidOf n v := by
  obtain htop | hbottom | ⟨-, -, heq⟩ := h
  · cases t with
    | primitive i name =>
      rw [Ty.Sat]
      simp only [Ty.isTop, Bool.or_eq_true, beq_iff_eq] at htop
      tauto
    | _ => cases htop
  · cases s with
    | primitive i name =>
      simp only [Ty.isBottom, Bool.or_eq_true, beq_iff_eq] at hbottom
      obtain rfl | rfl := hbottom
      · exact absurd rfl (hany i)
      · rw [Ty.Sat] at hsat
        simp at hsat
    | _ => cases hbottom
  · exact hsame heq

/-- A value that equals a literal has its built-in type, unless the literal is `null`. -/
theorem Value.tag_of_equals {w : Literal} (h : v.equals w = true) (hw : w.tag ≠ "unknown") :
    v.tag = w.tag := by
  cases w with
  | null | list items => exact absurd rfl hw
  | _ => cases v <;> first | rfl | cases h

theorem sat_of_primitiveFits {name : String} (hfit : primitiveFits name s = true)
    (hsat : s.Sat g uidOf n v) {m : Nat} : (Ty.primitive i name).Sat g uidOf m v := by
  rw [Ty.Sat]
  cases s with
  | primitive j name' =>
    obtain rfl : name' = name := by simpa [primitiveFits] using hfit
    rw [Ty.Sat] at hsat
    exact hsat
  | literal j w =>
    obtain rfl : w.tag = name := by simpa [primitiveFits] using hfit
    rw [Ty.Sat] at hsat
    by_cases hunknown : w.tag = "unknown"
    · exact .inr (.inl hunknown)
    · refine .inr (.inr ⟨?_, Value.tag_of_equals hsat hunknown⟩)
      cases w <;> simp [Literal.tag]
  | object j fs =>
    obtain rfl : name = "object" := by simpa [primitiveFits] using hfit
    rw [Ty.Sat] at hsat
    obtain ⟨entries, rfl, -⟩ := hsat
    exact .inr (.inr ⟨by decide, rfl⟩)
  | array j e | tuple j es =>
    obtain rfl : name = "object" := by simpa [primitiveFits] using hfit
    rw [Ty.Sat] at hsat
    obtain ⟨vs, rfl, -⟩ := hsat
    exact .inr (.inr ⟨by decide, rfl⟩)
  | reference j d args bases =>
    simp only [primitiveFits, Bool.and_eq_true, beq_iff_eq, Declaration.isClass] at hfit
    obtain ⟨rfl, hk⟩ := hfit
    rw [Ty.sat_reference, if_pos hk] at hsat
    obtain ⟨classes, rfl, -⟩ := hsat
    exact .inr (.inr ⟨by decide, rfl⟩)
  | _ => cases hfit

/-- An instance of a class is an instance of what the class extends. -/
theorem sat_of_inherits (huid : ∀ d e : Declaration, d.id = e.id → uidOf d = uidOf e)
    {i j : NodeId} {d e : Declaration} {as bs : List Ty} {bases bases' : List Declaration}
    (hid : ¬ (e.id == d.id) = true) (hclass : (d.isClass && e.isClass) = true)
    (h : inherits e bases' d = true) (hs : g.Covers source (.reference j e bs bases'))
    (hv : v.ClosedUnder g uidOf source) (hsat : (Ty.reference j e bs bases').Sat g uidOf n v)
    {m : Nat} : (Ty.reference i d as bases).Sat g uidOf m v := by
  simp only [Bool.and_eq_true, Declaration.isClass, beq_iff_eq] at hclass
  rw [Ty.sat_reference, if_pos hclass.2] at hsat
  rw [Ty.sat_reference, if_pos hclass.1]
  obtain ⟨classes, rfl, hmem⟩ := hsat
  refine ⟨classes, rfl, ?_⟩
  unfold inherits at h
  rw [Bool.or_eq_true] at h
  obtain ⟨b, hb, hbid⟩ := any_eq_true.1 (h.resolve_left hid)
  rw [← huid b d (by simpa using hbid)]
  exact hv classes mem_cons_self (hs _ (.refl _)) hmem b hb

section Containers

variable {m : Nat} {i j : NodeId}

theorem sat_array {e f : Ty} (h : ∀ w : Value, w.Inside v → f.Sat g uidOf n w → e.Sat g uidOf m w)
    (hsat : (Ty.array j f).Sat g uidOf n v) : (Ty.array i e).Sat g uidOf m v := by
  rw [Ty.Sat] at hsat ⊢
  obtain ⟨vs, rfl, hall⟩ := hsat
  exact ⟨vs, rfl, fun w hw => h w (Value.inside_list hw) (hall w hw)⟩

theorem sat_array_of_tuple {e : Ty} {fs : List Ty}
    (h : ∀ f ∈ fs, ∀ w : Value, w.Inside v → f.Sat g uidOf n w → e.Sat g uidOf m w)
    (hsat : (Ty.tuple j fs).Sat g uidOf n v) : (Ty.array i e).Sat g uidOf m v := by
  rw [Ty.Sat] at hsat
  rw [Ty.Sat]
  obtain ⟨vs, rfl, hlen, hall⟩ := hsat
  refine ⟨vs, rfl, fun w hw => ?_⟩
  obtain ⟨k, hk, rfl⟩ := mem_iff_getElem.1 hw
  have hk' : k < fs.length := hlen ▸ hk
  exact h fs[k] (getElem_mem hk') _ (Value.inside_list hw)
    (hall k hk' _ (getElem?_eq_getElem hk))

theorem sat_tuple {es fs : List Ty} (hlength : es.length = fs.length)
    (h : ∀ q ∈ es.zip fs, ∀ w : Value, w.Inside v → q.2.Sat g uidOf n w → q.1.Sat g uidOf m w)
    (hsat : (Ty.tuple j fs).Sat g uidOf n v) : (Ty.tuple i es).Sat g uidOf m v := by
  rw [Ty.Sat] at hsat ⊢
  obtain ⟨vs, rfl, hlen, hall⟩ := hsat
  refine ⟨vs, rfl, hlen.trans hlength.symm, fun k hk w hw => ?_⟩
  have hk' : k < fs.length := hlength ▸ hk
  have hmem : (es[k], fs[k]) ∈ es.zip fs := by
    have hkz : k < (es.zip fs).length := by
      rw [length_zip]
      omega
    have := getElem_mem hkz
    rwa [getElem_zip] at this
  exact h _ hmem w (Value.inside_list (mem_of_getElem? hw)) (hall k hk' w hw)

/-- Every field of the target has its like in the source, and is optional if the like is. -/
theorem sat_object {fs : List TyField}
    (h : ∀ f ∈ fs, ∃ f', findField gs f.name = some f' ∧ (f'.optional = true → f.optional = true) ∧
      ∀ w : Value, w.Inside v → f'.type.Sat g uidOf n w → f.type.Sat g uidOf m w)
    (hsat : (Ty.object j gs).Sat g uidOf n v) : (Ty.object i fs).Sat g uidOf m v := by
  rw [Ty.Sat] at hsat ⊢
  obtain ⟨entries, rfl, hall⟩ := hsat
  refine ⟨entries, rfl, fun f hf => ?_⟩
  obtain ⟨f', hfind, hoptional, hin⟩ := h f hf
  have hname : f'.name = f.name := by simpa using find?_some hfind
  have hfield := hall f' (mem_of_find?_eq_some hfind)
  rw [hname] at hfield
  obtain ⟨hopt, habsent⟩ | hfield := hfield
  · exact Or.inl ⟨hoptional hopt, habsent⟩
  · exact Or.inr (hin _ (Value.inside_record _ _) hfield)

end Containers

/-- A value of the source is a value of the target, with `k` more names to follow at each level of
the value. The recursion goes down the value, then along the references of the target, its tree, the
references of the source and its tree. -/
theorem sat_of_compared (hone : g.OneNode target source)
    (halike : g.Alike target source)
    (huid : ∀ d e : Declaration, d.id = e.id → uidOf d = uidOf e)
    (hany : ∀ {t : Ty} {i : NodeId}, ¬ Compared g target source t (.primitive i "any")) {k : Nat}
    (hstraight : Straight g k target source)
    (hfit : ∀ {t s : Ty}, Compared g target source t s →
      Settled t s ∨ (t.isUnknown = false ∧ ∃ ps, demands? g t s = some ps))
    {t s : Ty} {n j : Nat} {v : Value} (hts : Compared g target source t s)
    (hground : ¬ Settled t s → g.Grounded j t) (hv : v.ClosedUnder g uidOf source)
    (hsat : s.Sat g uidOf n v) : t.Sat g uidOf (n + j + k * v.depth) v := by
  obtain ⟨ht, hs⟩ := hts.covers
  by_cases hsettled : Settled t s
  · have hany' : ∀ i, s ≠ .primitive i "any" := by
      rintro i rfl
      exact hany hts
    have hsame := fun h : t.same s = true => sat_of_same hone halike huid ht hs h hsat
    exact (sat_of_settled hany' hsame hsettled hsat).mono (by omega)
  obtain ⟨-, ps, hps⟩ := (hfit hts).resolve_left hsettled
  have hshape := hground hsettled
  obtain ⟨hdecisive, -, hprobes⟩ := Clause.demands_cases (demands?_eq t s ▸ hps)
  -- a pair that is looked at is among the demands, and an answer that is known is a yes
  have hchild : ∀ {t' s'}, .pair t' s' ∈ (clause g t s).probes → Compared g target source t' s' := by
    intro t' s' hp
    obtain hknown | ⟨q, hq, heq⟩ := hprobes _ hp
    · cases hknown
    · cases heq
      exact .step hts hsettled hps hq
  have hyes : ∀ {b}, .known b ∈ (clause g t s).probes → b = true := by
    intro b hp
    obtain hknown | ⟨q, -, heq⟩ := hprobes _ hp
    · cases hknown
      rfl
    · cases heq
  have hin : ∀ {t' s'}, .pair t' s' ∈ (clause g t s).probes → ∀ w : Value, w.Inside v →
      s'.Sat g uidOf n w → t'.Sat g uidOf (n + j + k * v.depth) w := by
    intro t' s' hp w hw hsat
    have hless : k * w.depth + k ≤ k * v.depth := by
      rw [← Nat.mul_succ]
      exact Nat.mul_le_mul_left k hw.1
    exact (sat_of_compared hone halike huid hany hstraight hfit (hchild hp)
      (hstraight.grounded (hchild hp)) (hw.closedUnder hv) hsat).mono (by omega)
  have hfor := for_clause (g := g) t s
  revert hdecisive hchild hyes hin hfor
  generalize clause g t s = cl
  intro hdecisive hchild hyes hin hfor
  cases hfor with
  | refused => cases hyes mem_cons_self
  | primitive => exact sat_of_primitiveFits (hyes mem_cons_self) hsat
  | sameDeclaration hid =>
    refine .mono ?_ (by omega : n ≤ n + j + k * v.depth)
    exact sat_reference_of_alike hone halike huid
      (fun _ ha hb hab h => sat_of_same hone halike huid ha hb hab h)
      (ht _ (.refl _)) (hs _ (.refl _)) (beq_iff_eq.1 hid).symm
      (.inr (hyes mem_cons_self)) hsat
  | classes hid hclass => exact sat_of_inherits huid hid hclass (hyes mem_cons_self) hs hv hsat
  | @unionSource _ i ms =>
    rw [Ty.Sat] at hsat
    obtain ⟨m, hm, hsat⟩ := hsat
    exact sat_of_compared hone halike huid hany hstraight hfit
      (hchild (mem_map_of_mem hm)) (fun _ => hshape) hv hsat
  | unionTarget | intersectionSource => cases hdecisive
  | @intersectionTarget _ i ms =>
    rw [Ty.Sat]
    intro m hm
    exact sat_of_compared hone halike huid hany hstraight hfit
      (hchild (mem_map_of_mem hm)) (fun _ => hshape.member m hm) hv hsat
  | unwrapSource hu =>
    obtain ⟨m, hm, hsat⟩ := Ty.sat_of_unwrap hu hsat
    exact (sat_of_compared hone halike huid hany hstraight hfit (hchild mem_cons_self)
      (fun _ => hshape) hv hsat).mono (by omega)
  | unwrapTarget hu =>
    obtain ⟨l, hl, hbody⟩ := hshape.follow hu
    refine (Ty.sat_of_body hu ?_).mono (by omega : n + l + k * v.depth + 1 ≤ _)
    exact sat_of_compared hone halike huid hany hstraight hfit (hchild mem_cons_self)
      (fun _ => hbody) hv hsat
  | arrays => exact sat_array (hin mem_cons_self) hsat
  | arrayOfTuple => exact sat_array_of_tuple (fun f hf => hin (mem_map_of_mem hf)) hsat
  | tuples hlen => exact sat_tuple hlen (fun q hq => hin (mem_map_of_mem hq)) hsat
  | @objects i₁ i₂ fs gs =>
    refine sat_object (fun f hf => ?_) hsat
    obtain ⟨f', hfind⟩ := Option.isSome_iff_exists.1 (hstraight.present hts hsettled f hf)
    obtain ⟨b, hknown, hb⟩ | ⟨e, he, hclash, hpair⟩ := fieldProbe_cases gs f
    · obtain ⟨hnone, -⟩ := hb (hyes (hknown ▸ mem_map_of_mem hf))
      rw [hfind] at hnone
      cases hnone
    · rw [hfind] at he
      cases he
      refine ⟨f', hfind, ?_, hin (hpair ▸ mem_map_of_mem hf)⟩
      intro hopt
      simpa [hopt] using hclash
termination_by (v.depth, j, sizeOf t, n, sizeOf s)
decreasing_by
  · exact .left _ _ hw.1
  · have hless := List.sizeOf_lt_of_mem hm
    refine .right _ (.right _ (.right _ (.right _ ?_)))
    subst_vars
    rw [Ty.union.sizeOf_spec]
    omega
  · have hless := List.sizeOf_lt_of_mem hm
    refine .right _ (.right _ (.left _ _ ?_))
    subst_vars
    rw [Ty.intersection.sizeOf_spec]
    omega
  · exact .right _ (.right _ (.right _ (.left _ _ (by omega))))
  · exact .right _ (.left _ _ (by omega))

end Fits

/-! ## Guards that are omitted -/

/-- The types of a property in a class and its superclass, in a state that resolving leads to. -/
theorem oneNode_of_inherited {p : Program} {c : ClassDecl} {name : String} {r r' : Resolution}
    {own base : Ty} (hr : p.Resolved r)
    (h : Gives (inheritedProperty p c name) r (some (own, base)) r') :
    r'.graph.OneNode own base := by
  obtain ⟨w, hw⟩ := hr.labels
  unfold inheritedProperty at h
  split at h
  · obtain ⟨hnone, -⟩ := gives_pure.1 h
    cases hnone
  · next parent hparent =>
      obtain ⟨found, r₁, hfound, h⟩ := gives_bind.1 h
      obtain ⟨w₁, hext₁, hw₁, hown⟩ :=
        p.typeOfProperty_labels c name _ _ _ hw hfound
      cases found with
      | none =>
        obtain ⟨hnone, -⟩ := gives_pure.1 h
        cases hnone
      | some t =>
        obtain ⟨found, r₂, hfound, h⟩ := gives_bind.1 h
        obtain ⟨w₂, hext₂, hw₂, hbase⟩ :=
          p.typeOfOpenProperty_labels parent name _ _ _ hw₁ hfound
        cases found with
        | none =>
          obtain ⟨hnone, -⟩ := gives_pure.1 h
          cases hnone
        | some s =>
          obtain ⟨hpair, rfl⟩ := gives_pure.1 h
          cases hpair
          have hnode : ∀ {u : Ty}, r₂.graph.Occurs own u ∨ r₂.graph.Occurs base u →
              w₂.node u.id = u := by
            rintro u (hu | hu)
            · exact hw₂.occurs ((hown own rfl).extends hext₂) hu
            · exact hw₂.occurs (hbase base rfl) hu
          intro u u' hu hu' hid
          rw [← hnode hu, ← hnode hu', hid]

theorem Graph.OneNode.toldApart {target source : Ty} (h : g.OneNode target source) :
    ToldApart g target source := by
  intro t s t' s' hts hts' ht hs
  exact ⟨h (.inl (hts.covers.1 _ (.refl _))) (.inl (hts'.covers.1 _ (.refl _))) ht,
    h (.inr (hts.covers.2 _ (.refl _))) (.inr (hts'.covers.2 _ (.refl _))) hs⟩

/-- A guard is omitted where the type of the superclass is assignable. -/
theorem assignable_of_omits {p : Program} {c : ClassDecl} {r r' : Resolution} {own base : Ty}
    (htypes : Gives (inheritedProperty p c instanceProperty) r (some (own, base)) r')
    (h : Gives (omitsInstance p c) r true r') : assignable r'.graph own base = true := by
  obtain ⟨found, r₁, hfound, h⟩ := gives_bind.1 h
  obtain ⟨rfl, rfl⟩ : found = some (own, base) ∧ r₁ = r' := by
    unfold Gives at hfound htypes
    rw [htypes] at hfound
    cases hfound
    exact ⟨rfl, rfl⟩
  obtain ⟨r₂, r₃, hget, h⟩ := gives_bind.1 h
  obtain ⟨rfl, rfl⟩ := gives_get.1 hget
  exact (gives_pure.1 h).1

/-- **An omitted guard loses no check.** Let the guard of a class be omitted, and let the comparison
of the two types keep clear of choices, of optional fields that the superclass lacks, of references
that lead only to one another, and of `any`. Then a value that passes the guard of the superclass
passes the guard of the class, if instances are instances of what their classes extend. The class
may follow `k` more names at each level of the value. -/
theorem omitted_guard_accepts {p : Program} {c : ClassDecl} {r r' : Resolution} {own base : Ty}
    (hr : p.Resolved r) (h : Gives (omitsInstance p c) r true r')
    (htypes : Gives (inheritedProperty p c instanceProperty) r (some (own, base)) r') {k : Nat}
    (hany : ∀ {t : Ty} {i : NodeId}, ¬ Compared r'.graph own base t (.primitive i "any"))
    (hstraight : Straight r'.graph k own base) (halike : r'.graph.Alike own base)
    {uidOf : Declaration → String}
    (huid : ∀ d e : Declaration, d.id = e.id → uidOf d = uidOf e)
    (hownNames : r'.graph.NamesAgree uidOf own) (hbaseNames : r'.graph.NamesAgree uidOf base)
    {ids ids' : Registry} {ws ws' : List GuardWarning} {check check' : Guard}
    {compiler compiler' : Compiler}
    (hbase : Yields (typeGuard r'.graph base) ⟨ids, Arena.empty, ws⟩ check compiler)
    (hown : Yields (typeGuard r'.graph own) ⟨ids', Arena.empty, ws'⟩ check' compiler')
    (hids : compiler.ids.Follows uidOf) (hids' : compiler'.ids.Follows uidOf) {n : Nat} {v : Value}
    (hv : v.ClosedUnder r'.graph uidOf base)
    (hcheck : Guard.checkWithin compiler.arena.lookup n check v = true) :
    Guard.checkWithin compiler'.arena.lookup (n + k * (v.depth + 1)) check' v = true := by
  have hone : r'.graph.OneNode own base := oneNode_of_inherited hr htypes
  have hfit : ∀ {t s : Ty}, Compared r'.graph own base t s →
      Settled t s ∨ (t.isUnknown = false ∧ ∃ ps, demands? r'.graph t s = some ps) := fun hts =>
    compared_of_assignable (assignable_of_omits htypes h) hstraight.noChoice hone.toldApart hts
  obtain ⟨rfl, hsound, hknows, hclosed⟩ := typeGuard_byName hbase hids hbaseNames
  obtain ⟨rfl, hsound', hknows', hclosed'⟩ := typeGuard_byName hown hids' hownNames
  have hsat := (checkWithin_byName hbaseNames hsound hclosed n base v (fun u hu => Or.inl hu)
    hknows).1 hcheck
  have hfits : own.Sat r'.graph uidOf (n + k + k * v.depth) v :=
    sat_of_compared hone halike huid hany hstraight hfit .root (hstraight.grounded .root) hv hsat
  refine (checkWithin_byName hownNames hsound' hclosed' _ own v (fun u hu => .inl hu)
    hknows').2 (hfits.mono ?_)
  rw [Nat.mul_succ]
  omega

/-! ## Chains of cells -/

namespace Cells

/-- The declaration of an interface. -/
def decl (id : Nat) (name : String) : Declaration := ⟨id, name, .interfaceDecl, "a.ts", .nowhere⟩

/-- A field with a named type. -/
def field (name type : String) (optional : Bool) : Field where
  loc := .nowhere
  name := name
  type := some (.reference .nowhere type [])
  optional := optional
  static := false
  readOnly := false
  definite := false
  init := none

/-- A class whose instance has a named type. -/
def holder (id : Nat) (name type : String) (parent : Option TypeExpr) : ClassDecl where
  decl := ⟨id, name, .classDecl, "a.ts", .nowhere⟩
  typeParams := []
  parent := parent
  implemented := []
  decorations := []
  members := [.field (field "instance" type false)]

def base : ClassDecl := holder 2 "Base" "Noted" none

def door : ClassDecl := holder 3 "Door" "Cell" (some (.reference .nowhere "Base" []))

/-- The instance of `Base` is a chain of cells with notes, that of `Door` a chain of cells. -/
def program : Program where
  files := [
    { path := "a.ts", external := false, ambient := false, aliases := [], decorators := []
      classes := [base, door]
      interfaces := [
        ⟨decl 0 "Cell", [], [], [field "value" "number" false, field "next" "Cell" true], []⟩,
        ⟨decl 1 "Noted", [], [], [field "value" "number" false, field "next" "Noted" true,
          field "note" "string" false], []⟩] }]

def cell : Ty := .reference 0 (decl 0 "Cell") [] []

def cellBody : Ty := .object 2 [.mk "value" (.primitive 1 "number") false, .mk "next" cell true]

def noted : Ty := .reference 3 (decl 1 "Noted") [] []

def notedBody : Ty :=
  .object 6 [.mk "value" (.primitive 4 "number") false, .mk "next" noted true,
    .mk "note" (.primitive 5 "string") false]

def resolution : Resolution where
  graph := ⟨7, [(3, notedBody), (0, cellBody)]⟩
  shared := [((1, ""), noted), ((0, ""), cell)]

theorem inherited : Gives (inheritedProperty program door instanceProperty) Resolution.empty
    (some (cell, noted)) resolution := rfl

theorem omits : Gives (omitsInstance program door) Resolution.empty true resolution := by
  have hfits : assignable resolution.graph cell noted = true := by decide +kernel
  refine gives_bind.2 ⟨_, _, inherited, gives_bind.2 ⟨_, _, gives_get.2 ⟨rfl, rfl⟩, ?_⟩⟩
  exact gives_pure.2 ⟨hfits, rfl⟩

/-- The pairs that the comparison of the two chains comes to. -/
theorem compared (h : Compared resolution.graph cell noted t s) :
    (t, s) ∈ [(cell, noted), (cell, notedBody), (cellBody, notedBody),
      (.primitive 1 "number", .primitive 4 "number")] := by
  induction h with
  | root => exact mem_cons_self
  | step _ hopen hps hq ih =>
    simp only [mem_cons, not_mem_nil, or_false, Prod.mk.injEq] at ih
    obtain ⟨rfl, rfl⟩ | ⟨rfl, rfl⟩ | ⟨rfl, rfl⟩ | ⟨rfl, rfl⟩ := ih
    · obtain rfl := Option.some.inj hps
      rw [mem_singleton.1 hq]
      simp
    · obtain rfl := Option.some.inj hps
      rw [mem_singleton.1 hq]
      simp
    · obtain rfl := Option.some.inj hps
      simp only [mem_cons, not_mem_nil, or_false] at hq
      obtain rfl | rfl := hq
      · simp [TyField.type]
      · simp [TyField.type]
    · exact absurd (.inr (.inr ⟨rfl, rfl, rfl⟩)) hopen

theorem straight : Straight resolution.graph 1 cell noted where
  noChoice := by
    intro t s h _
    have hmem := compared h
    simp only [mem_cons, not_mem_nil, or_false, Prod.mk.injEq] at hmem
    obtain ⟨rfl, rfl⟩ | ⟨rfl, rfl⟩ | ⟨rfl, rfl⟩ | ⟨rfl, rfl⟩ := hmem <;> exact id
  present := by
    intro i j fs gs h _
    have hmem := compared h
    simp only [mem_cons, not_mem_nil, or_false, Prod.mk.injEq, reduceCtorEq, cell, noted,
      cellBody, notedBody, false_and, and_false, false_or] at hmem
    obtain ⟨h₁, h₂⟩ := hmem
    cases h₁
    cases h₂
    decide
  grounded := by
    intro t s h _
    have hmem := compared h
    simp only [mem_cons, not_mem_nil, or_false, Prod.mk.injEq] at hmem
    have hbody : resolution.graph.Grounded 0 cellBody := .shape (by simp [cellBody]) rfl
    obtain ⟨rfl, rfl⟩ | ⟨rfl, rfl⟩ | ⟨rfl, rfl⟩ | ⟨rfl, rfl⟩ := hmem
    · exact .body rfl hbody
    · exact .body rfl hbody
    · exact .shape (by simp [cellBody]) rfl
    · exact .shape (by simp) rfl

/-- The only references are those to the two interfaces. -/
theorem reference_cases (ht : t = cell ∨ t = noted) {d : Declaration} {args : List Ty}
    {bases : List Declaration} (h : resolution.graph.Occurs t (.reference i d args bases)) :
    Ty.reference i d args bases = cell ∨ Ty.reference i d args bases = noted := by
  have hmem := h.mem_pool
  obtain rfl | rfl := ht
  all_goals
    simp [Graph.pool, resolution, cell, noted, cellBody, notedBody] at hmem ⊢
    tauto

theorem alike : resolution.graph.Alike cell noted := by
  intro i d as bases j e bs bases' ht hs hij hid _
  obtain ht | ht := reference_cases (Or.inl rfl) ht <;>
    obtain hs | hs := reference_cases (Or.inr rfl) hs <;> cases ht <;> cases hs
  · exact absurd rfl hij
  · cases hid
  · cases hid
  · exact absurd rfl hij

/-- The identifiers of the two interfaces. -/
def uidOf (d : Declaration) : String := if d.id = 0 then "a@Cell" else "a@Noted"

theorem namesAgree (ht : t = cell ∨ t = noted) : resolution.graph.NamesAgree uidOf t := by
  rintro key x y ⟨i, d, args, bases, hi, -, hkey, rfl⟩ ⟨j, e, args', bases', hj, -, hkey', rfl⟩
  rw [← hkey'] at hkey
  obtain hi | hi := reference_cases ht hi <;> obtain hj | hj := reference_cases ht hj <;>
    cases hi <;> cases hj
  · rfl
  · exact absurd hkey (by decide)
  · exact absurd hkey (by decide)
  · rfl

end Cells

/-- Every value that is a chain of cells with notes is a chain of cells, so the guard of the class
adds nothing. -/
theorem omitted_guard_accepts_cells : ∃ check compiler check' compiler',
    Yields (typeGuard Cells.resolution.graph Cells.noted) (Compiler.empty .path) check compiler ∧
    Yields (typeGuard Cells.resolution.graph Cells.cell) (Compiler.empty .path) check' compiler' ∧
    Gives (omitsInstance Cells.program Cells.door) Resolution.empty true Cells.resolution ∧
    Straight Cells.resolution.graph 1 Cells.cell Cells.noted ∧
    ∀ n v, Guard.checkWithin compiler.arena.lookup n check v = true →
      Guard.checkWithin compiler'.arena.lookup (n + 1 * (v.depth + 1)) check' v = true := by
  have hnoted : Yields (typeGuard Cells.resolution.graph Cells.noted) (Compiler.empty .path)
      (.ref "a@Noted")
      ⟨⟨.path, [(1, "a@Noted")]⟩, ⟨[("a@Noted", .shape [.mk "value" false (.kind "number"),
        .mk "next" true (.ref "a@Noted"), .mk "note" false (.kind "string")])]⟩, []⟩ := by
    cbv
  have hcell : Yields (typeGuard Cells.resolution.graph Cells.cell) (Compiler.empty .path)
      (.ref "a@Cell")
      ⟨⟨.path, [(0, "a@Cell")]⟩, ⟨[("a@Cell", .shape [.mk "value" false (.kind "number"),
        .mk "next" true (.ref "a@Cell")])]⟩, []⟩ := by
    cbv
  refine ⟨_, _, _, _, hnoted, hcell, Cells.omits, Cells.straight, fun n v hcheck => ?_⟩
  refine omitted_guard_accepts .empty Cells.omits Cells.inherited ?_ Cells.straight Cells.alike
    ?_ (Cells.namesAgree (Or.inl rfl)) (Cells.namesAgree (Or.inr rfl))
    hnoted hcell (Registry.follows_single ?_) (Registry.follows_single ?_) ?_ hcheck
  · intro t i h
    have hmem := Cells.compared h
    simp [Cells.noted, Cells.notedBody] at hmem
  · intro d e hid
    unfold Cells.uidOf
    rw [hid]
  · intro d hd
    simp [Cells.uidOf, hd]
  · intro d hd
    simp [Cells.uidOf, hd]
  · intro classes _ id d args bases hocc _ b hb
    obtain h | h := Cells.reference_cases (Or.inr rfl) hocc <;> cases h <;> cases hb

end Componentry
