import Componentry.Proofs.Types.Plain

/-!
# Comparisons without a choice

Where the comparison of two types has no choice, it comes down to the comparison of other pairs, all
of which have to fit: its demands (`demands?`). A choice is a union that a type has to fit, or an
intersection that has to fit a type; a comparison that has one may go on after a part of it failed.

A comparison takes a pair of nodes that it has met before to fit. If there is no choice anywhere, a
part that fails makes the whole fail. So after a success every pair on the way is settled at once or
has its demands met, also where pairs lead back to themselves (`compared_of_assignable`). This needs
nodes to be told apart by their numbers.
-/

namespace Componentry

open List

variable {s t : Ty}

/-! ## Demands -/

/-- What the fields of a target demand of those of a source. -/
def fieldDemands (source : List TyField) : List TyField → Option (List (Ty × Ty))
  | [] => some []
  | f :: fs =>
    match findField source f.name with
    | none => if f.optional then fieldDemands source fs else none
    | some s =>
      if s.optional && !f.optional then none
      else (fieldDemands source fs).map ((f.type, s.type) :: ·)

/-- What a target demands that is no union or intersection, of a source that is neither and is taken
as it is. -/
def partDemands (g : Graph) (target source : Ty) : Option (List (Ty × Ty)) :=
  match target, source with
  | .primitive _ name, _ => if primitiveFits name source then some [] else none
  | .array _ e, .array _ f => some [(e, f)]
  | .array _ e, .tuple _ fs => some (fs.map fun f => (e, f))
  | .tuple _ es, .tuple _ fs => if es.length = fs.length then some (es.zip fs) else none
  | .object _ fs, .object _ gs => fieldDemands gs fs
  | .reference _ d as _, .reference _ e bs bases =>
    if e.id == d.id then if Ty.sameAll bs as then some [] else none
    else if d.isClass && e.isClass then if inherits e bases d then some [] else none
    else (g.unwrap? target).map fun t => [(t, source)]
  | .reference _ _ _ _, _ => (g.unwrap? target).map fun t => [(t, source)]
  | _, _ => none

/-- The pairs that all have to fit for a pair to fit; nothing if it cannot fit, or has a choice. -/
def demands? (g : Graph) (target source : Ty) : Option (List (Ty × Ty)) :=
  match source with
  | .union _ members => some (members.map fun m => (target, m))
  | _ =>
    match target with
    | .union _ _ => none
    | .intersection _ members => some (members.map fun m => (m, source))
    | _ =>
      match source with
      | .intersection _ _ => none
      | _ =>
        match g.unwrap? source with
        | some s => if target.sameDeclaration source then partDemands g target source
            else some [(target, s)]
        | none => partDemands g target source

/-- The pair leaves a choice: the source has to fit one member of a union, or one member of an
intersection has to fit the target. -/
def HasChoice : Ty → Ty → Prop
  | _, .union _ _ => False
  | .union _ _, _ => True
  | .intersection _ _, _ => False
  | _, .intersection _ _ => True
  | _, _ => False

/-- The pairs that the comparison of `target` and `source` comes to. -/
inductive Compared (g : Graph) (target source : Ty) : Ty → Ty → Prop where
  | root : Compared g target source target source
  | step {t s : Ty} {ps : List (Ty × Ty)} {q : Ty × Ty} (h : Compared g target source t s)
      (hopen : ¬ Settled t s) (hps : demands? g t s = some ps) (hq : q ∈ ps) :
      Compared g target source q.1 q.2

/-! ## Demands and probes -/

/-- What probes demand that all have to succeed; nothing if one of them cannot, or looks at merged
fields. -/
def Probe.demands : List Probe → Option (List (Ty × Ty))
  | [] => some []
  | .known b :: ps => if b then Probe.demands ps else none
  | .pair t s :: ps => (Probe.demands ps).map ((t, s) :: ·)
  | .merged _ _ :: _ => none

/-- What a clause demands; nothing if it is a choice. -/
def Clause.demands : Clause → Option (List (Ty × Ty))
  | ⟨false, ps⟩ => Probe.demands ps
  | ⟨true, _⟩ => none

theorem Probe.demands_map {α : Type} (f : α → Ty × Ty) (as : List α) :
    Probe.demands (as.map fun a => .pair (f a).1 (f a).2) = some (as.map f) := by
  induction as with
  | nil => rfl
  | cons a as ih => rw [map_cons, Probe.demands, ih, map_cons]; rfl

theorem Probe.demands_cases {ps : List Probe} {qs : List (Ty × Ty)}
    (h : Probe.demands ps = some qs) : (∀ q ∈ qs, .pair q.1 q.2 ∈ ps) ∧
      ∀ p ∈ ps, p = .known true ∨ ∃ q ∈ qs, p = .pair q.1 q.2 := by
  induction ps generalizing qs with
  | nil =>
    cases h
    simp
  | cons p ps ih =>
    cases p with
    | known b =>
      cases b with
      | false => cases h
      | true =>
        obtain ⟨hpairs, hall⟩ := ih h
        exact ⟨fun q hq => mem_cons_of_mem _ (hpairs q hq), forall_mem_cons.2 ⟨.inl rfl, hall⟩⟩
    | pair t s =>
      obtain ⟨rest, hrest, rfl⟩ := Option.map_eq_some_iff.1 h
      obtain ⟨hpairs, hall⟩ := ih hrest
      refine ⟨forall_mem_cons.2 ⟨mem_cons_self, fun q hq => mem_cons_of_mem _ (hpairs q hq)⟩,
        forall_mem_cons.2 ⟨.inr ⟨_, mem_cons_self, rfl⟩, fun p hp => ?_⟩⟩
      refine (hall p hp).imp_right ?_
      rintro ⟨q, hq, hp⟩
      exact ⟨q, mem_cons_of_mem _ hq, hp⟩
    | merged t fields => cases h

/-- The clause is no choice; the pairs among its probes are demanded, and the others succeed. -/
theorem Clause.demands_cases {cl : Clause} {qs : List (Ty × Ty)} (h : cl.demands = some qs) :
    cl.decisive = false ∧ (∀ q ∈ qs, .pair q.1 q.2 ∈ cl.probes) ∧
      ∀ p ∈ cl.probes, p = .known true ∨ ∃ q ∈ qs, p = .pair q.1 q.2 := by
  obtain ⟨decisive, ps⟩ := cl
  cases decisive with
  | true => cases h
  | false => exact ⟨rfl, Probe.demands_cases h⟩

section Demands

variable {g : Graph}

theorem fieldDemands_eq (source fs : List TyField) :
    fieldDemands source fs = Probe.demands (fs.map (fieldProbe source)) := by
  induction fs with
  | nil => rfl
  | cons f fs ih =>
    rw [fieldDemands, map_cons, fieldProbe]
    cases findField source f.name with
    | none => rw [ih]; rfl
    | some s =>
      dsimp only
      split
      · rfl
      · rw [ih]
        rfl

theorem unwrapDemands_eq (t s : Ty) : (g.unwrap? t).map (fun t' => [(t', s)]) =
    (Clause.all [unwrapProbe g t s]).demands := by
  rw [unwrapProbe]
  cases g.unwrap? t <;> rfl

theorem partDemands_eq (t s : Ty) : partDemands g t s = (partsClause g t s).demands := by
  unfold partDemands
  split
  · rfl
  · rfl
  · next e j fs => exact (Probe.demands_map (fun f => (e, f)) fs).symm
  · rw [partsClause]
    split
    · rw [Clause.demands, Probe.demands_map, map_id']
    · rfl
  · exact fieldDemands_eq _ _
  · rw [partsClause]
    split
    · rfl
    · split
      · rfl
      · exact unwrapDemands_eq _ _
  · next hplain =>
      cases s with
      | reference => exact absurd rfl (hplain _ _ _ _)
      | _ => exact unwrapDemands_eq _ _
  · rw [partsClause]
    · rfl
    all_goals assumption

theorem simpleDemands_eq (t s : Ty) : (match g.unwrap? s with
      | some b => if t.sameDeclaration s then partDemands g t s else some [(t, b)]
      | none => partDemands g t s) = (simpleClause g t s).demands := by
  rw [simpleClause]
  cases g.unwrap? s with
  | none => exact partDemands_eq t s
  | some b =>
    dsimp only
    split
    · exact partDemands_eq t s
    · rfl

/-- A pair demands what its clause does. -/
theorem demands?_eq (t s : Ty) : demands? g t s = (clause g t s).demands := by
  have hsimple : _ = (simpleClause g t s).demands := simpleDemands_eq t s
  cases s with
  | union i ms =>
    have hclause : clause g t (.union i ms) = .all (ms.map (.pair t)) := by cases t <;> rfl
    rw [hclause]
    exact (Probe.demands_map (fun m => (t, m)) ms).symm
  | intersection i ms =>
    cases t with
    | intersection j ns => exact (Probe.demands_map (fun m => (m, _)) ns).symm
    | _ => rfl
  | _ =>
    cases t with
    | union j ns => rfl
    | intersection j ns => exact (Probe.demands_map (fun m => (m, _)) ns).symm
    | _ => exact hsimple

/-- Without a choice, all probes have to succeed, and none of them looks at merged fields. -/
theorem all_of_not_choice (hno : ¬ HasChoice t s) : ∃ ps, clause g t s = .all ps ∧
    ∀ t' fields, .merged t' fields ∉ ps := by
  have hdecisive : (clause g t s).decisive = false := by
    cases s with
    | union i ms => cases t <;> rfl
    | intersection i ms =>
      cases t with
      | intersection j ns => rfl
      | _ => exact absurd trivial hno
    | _ =>
      cases t with
      | union j ns => exact absurd trivial hno
      | intersection j ns => rfl
      | _ => exact (for_clause _ _).decisive rfl rfl
  exact ⟨_, congrArg (Clause.mk · _) hdecisive, (for_clause t s).unmerged hdecisive⟩

end Demands

/-! ## The whole comparison -/

/-- The pair is settled or among those seen. -/
def Taken (seen : List (NodeId × NodeId)) (q : Ty × Ty) : Prop :=
  Settled q.1 q.2 ∨ (q.1.id, q.2.id) ∈ seen

/-- A pair that was noted: its demands are taken to fit. -/
structure Noted (g : Graph) (seen : List (NodeId × NodeId)) (q : Ty × Ty) : Prop where
  unsettled : ¬ Settled q.1 q.2
  known : q.1.isUnknown = false
  demands : ∃ ps, demands? g q.1 q.2 = some ps ∧ ∀ p ∈ ps, Taken seen p

theorem Taken.mono {seen seen' : List (NodeId × NodeId)} (h : ∀ k ∈ seen, k ∈ seen') {q : Ty × Ty}
    (hq : Taken seen q) : Taken seen' q := hq.imp_right (h _)

theorem Noted.mono {g : Graph} {seen seen' : List (NodeId × NodeId)} (h : ∀ k ∈ seen, k ∈ seen')
    {q : Ty × Ty} (hq : Noted g seen q) : Noted g seen' q := by
  obtain ⟨ps, hps, htaken⟩ := hq.demands
  exact ⟨hq.unsettled, hq.known, ps, hps, fun p hp => (htaken p hp).mono h⟩

/-- The comparison took `ps` to fit between two states: it noted pairs, all of them among those that
`N` tells, and in the end every one of `ps` is taken. -/
def Took (g : Graph) (N : Ty → Ty → Prop) (ps : List (Ty × Ty)) (c c' : Comparison) : Prop :=
  ∃ new : List (Ty × Ty), c'.seen = new.map (fun q => (q.1.id, q.2.id)) ++ c.seen ∧
    (∀ q ∈ new, N q.1 q.2 ∧ Noted g c'.seen q) ∧ ∀ p ∈ ps, Taken c'.seen p

section Run

variable {g : Graph} {N : Ty → Ty → Prop}

/-- Probes that all succeed have demands, and these are taken to fit. -/
theorem took_probes {self : CompareTypes}
    (hself : ∀ {t s : Ty} {c c' : Comparison}, N t s → Gives (self t s) c true c' →
      Took g N [(t, s)] c c') : ∀ {ps : List Probe} {c c' : Comparison},
    (∀ t fields, .merged t fields ∉ ps) →
    (∀ {qs}, Probe.demands ps = some qs → ∀ q ∈ qs, N q.1 q.2) →
    Gives ((Clause.all ps).run self) c true c' → ∃ qs, Probe.demands ps = some qs ∧ Took g N qs c c'
  | [], c, c', _, _, h => by
    obtain ⟨-, rfl⟩ := gives_run_nil.1 h
    exact ⟨[], rfl, [], rfl, nofun, nofun⟩
  | p :: ps, c, c', hmerged, hN, h => by
    obtain ⟨htrue, -⟩ | ⟨c₁, hp, hps⟩ := gives_run_cons.1 h
    · cases htrue
    have hrest : ∀ t fields, .merged t fields ∉ ps :=
      fun t fields hmem => hmerged t fields (mem_cons_of_mem _ hmem)
    cases p with
    | known b =>
      obtain ⟨rfl, rfl⟩ := gives_pure.1 hp
      have hok := took_probes hself hrest (fun hqs => hN hqs) hps
      exact hok
    | merged t fields => exact absurd mem_cons_self (hmerged t fields)
    | pair t s =>
      have hcons : ∀ {qs}, Probe.demands ps = some qs →
          Probe.demands (.pair t s :: ps) = some ((t, s) :: qs) :=
        fun hqs => by rw [Probe.demands, hqs]; rfl
      obtain ⟨qs, hqs, new₂, hseen₂, hnew₂, htaken₂⟩ := took_probes hself hrest
        (fun hqs q hq => hN (hcons hqs) q (mem_cons_of_mem _ hq)) hps
      obtain ⟨new₁, hseen₁, hnew₁, htaken₁⟩ := hself (hN (hcons hqs) _ mem_cons_self) hp
      have hmono : ∀ k ∈ c₁.seen, k ∈ c'.seen := by
        intro k hk
        rw [hseen₂]
        exact mem_append_right _ hk
      refine ⟨_, hcons hqs, new₂ ++ new₁, ?_, ?_, ?_⟩
      · rw [hseen₂, hseen₁, map_append, append_assoc]
      · intro q hq
        obtain hq | hq := mem_append.1 hq
        · exact hnew₂ q hq
        · exact ⟨(hnew₁ q hq).1, (hnew₁ q hq).2.mono hmono⟩
      · exact forall_mem_cons.2
          ⟨(htaken₁ _ mem_cons_self).mono hmono, htaken₂⟩

/-- By induction on the steps that may stand inside one another. The pairs of `N` have no choice, and
what they demand is among them. -/
theorem took_compareWithin (hno : ∀ {t s : Ty}, N t s → ¬ Settled t s → ¬ HasChoice t s)
    (hclosed : ∀ {t s : Ty} {ps : List (Ty × Ty)}, N t s → ¬ Settled t s →
      demands? g t s = some ps → ∀ p ∈ ps, N p.1 p.2) :
    ∀ (n : Nat) {t s : Ty} {c c' : Comparison}, N t s →
      Gives (compareWithin g n t s) c true c' → Took g N [(t, s)] c c'
  | 0, t, s, c, c', _, h => nomatch h
  | n + 1, t, s, c, c', hN, h => by
    have htaken : ∀ {seen : List (NodeId × NodeId)}, Taken seen (t, s) →
        ∀ p ∈ [(t, s)], Taken seen p := by
      intro seen h p hp
      rw [mem_singleton.1 hp]
      exact h
    have h : Gives (compareStep g (compareWithin g n) t s) c true c' := h
    obtain hsettled | hrefused | hopen := settled_or t s
    · rw [compareStep_settled hsettled] at h
      obtain ⟨-, rfl⟩ := gives_pure.1 h
      exact ⟨[], rfl, nofun, htaken (.inl hsettled)⟩
    · rw [compareStep_refused hrefused] at h
      obtain ⟨hfalse, -⟩ := gives_pure.1 h
      cases hfalse
    obtain ⟨hmem, -, rfl⟩ | ⟨-, hrun⟩ := (gives_compareStep_open hopen).1 h
    · exact ⟨[], rfl, nofun, htaken (.inr hmem)⟩
    · obtain ⟨probes, hclause, hmerged⟩ := all_of_not_choice (g := g) (hno hN hopen.not_settled)
      have hdemands : demands? g t s = Probe.demands probes := by rw [demands?_eq, hclause]; rfl
      rw [hclause] at hrun
      obtain ⟨ps, hps, new, hseen, hnew, hall⟩ :=
        took_probes (fun hN' h' => took_compareWithin hno hclosed n hN' h') hmerged
          (fun hqs => hclosed hN hopen.not_settled (hdemands.trans hqs)) hrun
      have hhere : (t.id, s.id) ∈ c'.seen := by
        rw [hseen]
        exact mem_append_right _ mem_cons_self
      refine ⟨new ++ [(t, s)], ?_, ?_, htaken (.inr hhere)⟩
      · rw [hseen, map_append, append_assoc]
        rfl
      · intro q hq
        obtain hq | hq := mem_append.1 hq
        · exact hnew q hq
        · rw [mem_singleton.1 hq]
          exact ⟨hN, hopen.not_settled, (Bool.or_eq_false_iff.1 hopen.known).2, ps,
            hdemands.trans hps, hall⟩

end Run

/-- The pairs that a comparison comes to are told apart by their numbers. -/
def ToldApart (g : Graph) (target source : Ty) : Prop :=
  ∀ {t s t' s' : Ty}, Compared g target source t s → Compared g target source t' s' →
    t.id = t'.id → s.id = s'.id → t = t' ∧ s = s'

/-- After a success, every pair that the comparison comes to is settled or has demands. -/
theorem compared_of_assignable {g : Graph} {target source : Ty}
    (h : assignable g target source = true)
    (hno : ∀ {t s : Ty}, Compared g target source t s → ¬ Settled t s → ¬ HasChoice t s)
    (hapart : ToldApart g target source) (hts : Compared g target source t s) :
    Settled t s ∨ (t.isUnknown = false ∧ ∃ ps, demands? g t s = some ps) := by
  obtain ⟨c', hrun⟩ : ∃ c', Gives (compareWithin g (compareBound g target source) target source)
      ⟨[], g.next⟩ true c' := by
    unfold assignable assignable? at h
    split at h
    · cases h
    · cases hr : (compareWithin g (compareBound g target source) target source).run
          ⟨[], g.next⟩ with
      | none =>
        rw [hr] at h
        cases h
      | some q =>
        rw [hr] at h
        obtain ⟨b, c'⟩ := q
        obtain rfl : b = true := h
        exact ⟨c', hr⟩
  obtain ⟨new, hseen, hnew, htaken⟩ :=
    took_compareWithin hno (fun hN hopen hps p hp => .step hN hopen hps hp) _ .root hrun
  rw [append_nil] at hseen
  -- numbers that were seen are those of a pair that was noted
  have hnoted : ∀ {t s : Ty}, Compared g target source t s → Taken c'.seen (t, s) →
      Settled t s ∨ Noted g c'.seen (t, s) := by
    intro t s hts htaken
    refine htaken.imp_right fun hmem => ?_
    rw [hseen] at hmem
    obtain ⟨q, hq, hids⟩ := mem_map.1 hmem
    obtain ⟨hN, hq⟩ := hnew q hq
    obtain ⟨hid, hid'⟩ := Prod.mk.inj hids
    obtain ⟨rfl, rfl⟩ := hapart hN hts hid hid'
    exact hq
  have hall : Settled t s ∨ Noted g c'.seen (t, s) := by
    induction hts with
    | root => exact hnoted .root (htaken _ mem_cons_self)
    | @step t s ps q hts hopen hps hq ih =>
      obtain hsettled | hts' := ih
      · exact absurd hsettled hopen
      · obtain ⟨ps', hps', hmet⟩ := hts'.demands
        rw [hps] at hps'
        cases hps'
        exact hnoted (.step hts hopen hps hq) (hmet q hq)
  refine hall.imp_right fun h => ?_
  obtain ⟨ps, hps, -⟩ := h.demands
  exact ⟨h.known, ps, hps⟩

end Componentry
