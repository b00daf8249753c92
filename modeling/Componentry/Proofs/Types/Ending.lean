import Componentry.Proofs.Types.Merging
import Componentry.Proofs.Types.Plain
import Componentry.Proofs.Types.Tree

/-!
# Comparisons come to an end

References may lead back to themselves, and an intersection in the source is merged into an object
type that no table has seen. Still every comparison ends, and the bound on its recursion is never
reached (`assignable_ends`).

A pair that is opened is noted, so pairs of nodes of the two types run out. A merged object type only
ever is a source. It is passed on to the parts of the target, and each of them is noted with its
number, so these run out too; at an object type the comparison goes on with the fields, and their
types are nodes of the source again.
-/

namespace Componentry

open List

variable {fields : List TyField} {t s : Ty} {cl : Clause} {g : Graph}

/-! ## What a clause looks at -/

theorem unwrap_mem_parts {t' : Ty} (h : g.unwrap? t = some t') : t' ∈ g.parts t := by
  cases t with
  | reference i d args bases =>
    unfold Graph.unwrap? at h
    dsimp only at h
    split at h
    · cases h
    · exact Option.mem_toList.2 h
  | _ => cases h

/-- A probe goes down in the target, in the source or in both; only for an intersection it looks at
merged fields. -/
inductive Probe.Below (g : Graph) (t s : Ty) : Probe → Prop where
  | known (b : Bool) : Probe.Below g t s (.known b)
  | target {t' : Ty} (ht : t' ∈ g.parts t) : Probe.Below g t s (.pair t' s)
  | source {s' : Ty} (hs : s' ∈ g.parts s) : Probe.Below g t s (.pair t s')
  | both {t' s' : Ty} (ht : t' ∈ g.parts t) (hs : s' ∈ g.parts s) :
      Probe.Below g t s (.pair t' s')
  | merged {i : NodeId} {ms : List Ty} {fields : List TyField} (hs : s = .intersection i ms)
      (h : mergedFields g s = some fields) : Probe.Below g t s (.merged t fields)

theorem findField_mem {fs : List TyField} {name : String} {f : TyField}
    (h : findField fs name = some f) : f ∈ fs := mem_of_find?_eq_some h

theorem below_clause (h : Clause.For g t s cl) : ∀ p ∈ cl.probes, p.Below g t s := by
  intro p hp
  cases h with
  | refused | primitive | sameDeclaration | classes =>
    rw [mem_singleton.1 hp]
    exact .known _
  | unionSource =>
    obtain ⟨m, hm, rfl⟩ := mem_map.1 hp
    exact .source hm
  | unionTarget | intersectionTarget =>
    obtain ⟨m, hm, rfl⟩ := mem_map.1 hp
    exact .target hm
  | intersectionSource =>
    obtain hp | hp := mem_append.1 hp
    · obtain ⟨m, hm, rfl⟩ := mem_map.1 hp
      exact .source hm
    · obtain ⟨fields, hfields, rfl⟩ := mem_map.1 hp
      exact .merged rfl (Option.mem_toList.1 hfields)
  | unwrapSource hu =>
    rw [mem_singleton.1 hp]
    exact .source (unwrap_mem_parts hu)
  | unwrapTarget hu =>
    rw [mem_singleton.1 hp]
    exact .target (unwrap_mem_parts hu)
  | arrays =>
    rw [mem_singleton.1 hp]
    exact .both mem_cons_self mem_cons_self
  | arrayOfTuple =>
    obtain ⟨m, hm, rfl⟩ := mem_map.1 hp
    exact .both mem_cons_self hm
  | tuples =>
    obtain ⟨q, hq, rfl⟩ := mem_map.1 hp
    exact .both (of_mem_zip hq).1 (of_mem_zip hq).2
  | @objects i j fs gs =>
    obtain ⟨f, hf, rfl⟩ := mem_map.1 hp
    obtain ⟨b, hknown, -⟩ | ⟨e, he, -, hpair⟩ := fieldProbe_cases gs f
    · rw [hknown]
      exact .known b
    · rw [hpair]
      exact .both (mem_map_of_mem hf) (mem_map_of_mem (findField_mem he))

/-- The types of merged fields stand inside the intersection, below it. -/
theorem inside_merged {f : TyField} (h : mergedFields g s = some fields) (hf : f ∈ fields) :
    g.Inside s f.type := by
  obtain ⟨i, fs, hmem, hinside⟩ := (mergedFields_declares h hf).bears
  exact hinside.trans (Graph.inside_part (mem_map_of_mem hmem))

/-- A merged object type is passed on to the parts of the target, until an object type is there. -/
theorem probes_object {i : NodeId} (h : Clause.For g t (.object i fields) cl) :
    ∀ p ∈ cl.probes, (∃ b, p = .known b) ∨ (∃ t' ∈ g.parts t, p = .pair t' (.object i fields)) ∨
      ∃ j fs f e, t = .object j fs ∧ f ∈ fs ∧ findField fields f.name = some e ∧
        (e.optional && !f.optional) = false ∧ p = .pair f.type e.type := by
  intro p hp
  cases h with
  | refused | primitive => exact .inl ⟨_, mem_singleton.1 hp⟩
  | unionTarget | intersectionTarget =>
    obtain ⟨m, hm, rfl⟩ := mem_map.1 hp
    exact .inr (.inl ⟨m, hm, rfl⟩)
  | unwrapSource hu => cases hu
  | unwrapTarget hu =>
    exact .inr (.inl ⟨_, unwrap_mem_parts hu, mem_singleton.1 hp⟩)
  | @objects j _ fs _ =>
    obtain ⟨f, hf, rfl⟩ := mem_map.1 hp
    obtain ⟨b, hknown, -⟩ | ⟨e, he, hclash, hpair⟩ := fieldProbe_cases fields f
    · exact .inl ⟨b, hknown⟩
    · exact .inr (.inr ⟨j, fs, f, e, rfl, hf, he, hclash, hpair⟩)

/-! ## The measure of a comparison -/

theorem Graph.Occurs.part {u p : Ty} (h : g.Occurs t u) (hp : p ∈ g.parts u) : g.Occurs t p := by
  obtain ⟨i, hi⟩ := Graph.at_part hp
  exact h.at hi

/-- The numbers of the nodes of a type. -/
def Graph.nodes (g : Graph) (t : Ty) : List NodeId := (g.pool t).map Ty.id

theorem Graph.Occurs.mem_nodes {u : Ty} (h : g.Occurs t u) : u.id ∈ g.nodes t :=
  mem_map_of_mem h.mem_pool

/-- A source that the comparison with `source` comes to, and the numbers that it may be noted with
before the comparison goes on with nodes of `source`. -/
inductive Graph.Sourced (g : Graph) (target source : Ty) : Ty → List (NodeId × NodeId) → Prop where
  | node {s : Ty} (h : g.Occurs source s) : Sourced g target source s []
  | merged {i : NodeId} {fields : List TyField} (h : ∀ f ∈ fields, g.Occurs source f.type) :
      Sourced g target source (.object i fields) ((g.nodes target).map (·, i))

/-- What is left of a comparison: pairs of nodes that were not met, and for each of them the pairs
with a merged object type. -/
def Comparison.left (c : Comparison) (g : Graph) (target source : Ty)
    (own : List (NodeId × NodeId)) : Nat :=
  unseen (g.nodes target ×ˢ g.nodes source) c.seen * ((g.nodes target).length + 1) +
    unseen own c.seen

section Left

variable {target source : Ty} {c c' : Comparison} {own own' : List (NodeId × NodeId)}

/-- Noting a pair of nodes leaves less, also if a merged object type comes next. -/
theorem Comparison.left_of_node (ht : g.Occurs target t) (hs : g.Occurs source s)
    (hnew : (t.id, s.id) ∉ c.seen) (hseen : (t.id, s.id) :: c.seen ⊆ c'.seen)
    (hown : own'.length ≤ (g.nodes target).length) :
    c'.left g target source own' < c.left g target source own := by
  have hless : unseen (g.nodes target ×ˢ g.nodes source) c'.seen <
      unseen (g.nodes target ×ˢ g.nodes source) c.seen :=
    unseen_lt (fun _ hk => hseen (mem_cons_of_mem _ hk))
      (pair_mem_product.2 ⟨ht.mem_nodes, hs.mem_nodes⟩) hnew (hseen mem_cons_self)
  have hmul := Nat.mul_le_mul_right ((g.nodes target).length + 1) (Nat.succ_le_of_lt hless)
  have hrest := unseen_le_length own' c'.seen
  rw [Nat.succ_mul] at hmul
  unfold Comparison.left
  omega

/-- Noting a merged object type leaves less, also if nodes come next. -/
theorem Comparison.left_of_merged {k : NodeId × NodeId} (hk : k ∈ own) (hnew : k ∉ c.seen)
    (hseen : k :: c.seen ⊆ c'.seen) (hown : own' = own ∨ own' = []) :
    c'.left g target source own' < c.left g target source own := by
  have hsub : c.seen ⊆ c'.seen := fun _ hk => hseen (mem_cons_of_mem _ hk)
  have hless := unseen_lt hsub hk hnew (hseen mem_cons_self)
  have hmul := Nat.mul_le_mul_right ((g.nodes target).length + 1)
    (unseen_mono (g.nodes target ×ˢ g.nodes source) hsub)
  have hrest : unseen own' c'.seen ≤ unseen own c'.seen := by
    obtain rfl | rfl := hown
    · exact Nat.le_refl _
    · exact Nat.zero_le _
  unfold Comparison.left
  omega

/-- By induction on the steps that may stand inside one another, which are more than are left. -/
theorem compareWithin_total : ∀ (n : Nat) {t s : Ty} {own : List (NodeId × NodeId)}
    {c : Comparison}, g.Occurs target t → g.Sourced target source s own →
    c.left g target source own < n → ∃ b c', Gives (compareWithin g n t s) c b c' ∧ c.seen ⊆ c'.seen
  | 0, t, s, own, c, _, _, hn => absurd hn (Nat.not_lt_zero _)
  | n + 1, t, s, own, c, ht, hs, hn => by
    show ∃ b c', Gives (compareStep g (compareWithin g n) t s) c b c' ∧ c.seen ⊆ c'.seen
    obtain hsettled | hrefused | hopen := settled_or t s
    · rw [compareStep_settled hsettled]
      exact ⟨true, c, gives_pure.2 ⟨rfl, rfl⟩, .refl _⟩
    · rw [compareStep_refused hrefused]
      exact ⟨false, c, gives_pure.2 ⟨rfl, rfl⟩, .refl _⟩
    simp only [gives_compareStep_open hopen]
    by_cases hseen : (t.id, s.id) ∈ c.seen
    · exact ⟨true, c, Or.inl ⟨hseen, rfl, rfl⟩, .refl _⟩
    -- less is left after the pair is noted, whatever the probes before note
    have hnext : ∀ {t' s' own' c₁}, g.Occurs target t' → g.Sourced target source s' own' →
        (t.id, s.id) :: c.seen ⊆ c₁.seen →
        c₁.left g target source own' < c.left g target source own →
        ∃ b c', Gives (compareWithin g n t' s') c₁ b c' ∧ (t.id, s.id) :: c.seen ⊆ c'.seen := by
      intro t' s' own' c₁ ht' hs' hsub hless
      have hfuel : c₁.left g target source own' < n := by omega
      obtain ⟨b, c', hrun, hgrown⟩ := compareWithin_total n ht' hs' hfuel
      exact ⟨b, c', hrun, Subset.trans hsub hgrown⟩
    have hprobe : ∀ p ∈ (clause g t s).probes, ∀ c₁ : Comparison,
        (t.id, s.id) :: c.seen ⊆ c₁.seen → ∃ b c', Gives (p.run (compareWithin g n)) c₁ b c' ∧
          (t.id, s.id) :: c.seen ⊆ c'.seen := by
      intro p hp c₁ hsub
      have hknown : ∀ b, ∃ b' c', Gives ((Probe.known b).run (compareWithin g n)) c₁ b' c' ∧
          (t.id, s.id) :: c.seen ⊆ c'.seen := fun b => ⟨b, c₁, gives_pure.2 ⟨rfl, rfl⟩, hsub⟩
      cases hs with
      | node hs =>
        have hless : ∀ {own'}, own'.length ≤ (g.nodes target).length →
            c₁.left g target source own' < c.left g target source [] :=
          fun hown => Comparison.left_of_node ht hs hseen hsub hown
        cases below_clause (for_clause t s) p hp with
        | known b => exact hknown b
        | target ht' => exact hnext (ht.part ht') (.node hs) hsub (hless (Nat.zero_le _))
        | source hs' => exact hnext ht (.node (hs.part hs')) hsub (hless (Nat.zero_le _))
        | both ht' hs' =>
          exact hnext (ht.part ht') (.node (hs.part hs')) hsub (hless (Nat.zero_le _))
        | merged _ hfields =>
          simp only [gives_merged]
          refine hnext ht (.merged fun f hf => ?_) hsub (hless (by rw [length_map]))
          obtain ⟨q, hq⟩ := inside_merged hfields hf
          exact hs.at hq
      | @merged i fields hfields =>
        have hmem : (t.id, i) ∈ (g.nodes target).map (·, i) := mem_map_of_mem ht.mem_nodes
        obtain ⟨b, rfl⟩ | ⟨t', ht', rfl⟩ | ⟨j, fs, f, e, rfl, hf, he, -, rfl⟩ :=
          probes_object (for_clause t (.object i fields)) p hp
        · exact hknown b
        · exact hnext (ht.part ht') (.merged hfields) hsub
            (Comparison.left_of_merged hmem hseen hsub (Or.inl rfl))
        · exact hnext (ht.part (mem_map_of_mem hf)) (.node (hfields e (findField_mem he))) hsub
            (Comparison.left_of_merged hmem hseen hsub (Or.inr rfl))
    obtain ⟨b, c', hrun, hgrown⟩ := Clause.run_total hprobe
      { c with seen := (t.id, s.id) :: c.seen } (Subset.refl _)
    exact ⟨b, c', .inr ⟨hseen, hrun⟩, fun k hk => hgrown (mem_cons_of_mem _ hk)⟩

end Left

/-! ## The bound -/

/-- A comparison that has an answer keeps it if more steps may stand inside one another. -/
theorem gives_run_mono {self other : CompareTypes} {d : Bool}
    (h : ∀ {t s c b c'}, Gives (self t s) c b c' → Gives (other t s) c b c') :
    ∀ {ps : List Probe} {c c' : Comparison} {b : Bool},
      Gives ((Clause.mk d ps).run self) c b c' → Gives ((Clause.mk d ps).run other) c b c'
  | [], c, c', b, hrun => gives_run_nil.2 (gives_run_nil.1 hrun)
  | p :: ps, c, c', b, hrun => by
    have hprobe : ∀ {c b c'}, Gives (p.run self) c b c' → Gives (p.run other) c b c' := by
      intro c b c' hp
      cases p with
      | known _ => exact hp
      | pair t s => exact h hp
      | merged t fields => exact gives_merged.2 (h (gives_merged.1 hp))
    obtain ⟨rfl, hp⟩ | ⟨c₁, hp, hps⟩ := gives_run_cons.1 hrun
    · exact gives_run_cons.2 (.inl ⟨rfl, hprobe hp⟩)
    · exact gives_run_cons.2 (.inr ⟨c₁, hprobe hp, gives_run_mono h hps⟩)

theorem compareWithin_succ : ∀ (n : Nat) {t s : Ty} {c c' : Comparison} {b : Bool},
    Gives (compareWithin g n t s) c b c' → Gives (compareWithin g (n + 1) t s) c b c'
  | 0, t, s, c, c', b, h => absurd h not_gives_failure
  | n + 1, t, s, c, c', b, h => by
    have h : Gives (compareStep g (compareWithin g n) t s) c b c' := h
    show Gives (compareStep g (compareWithin g (n + 1)) t s) c b c'
    obtain hsettled | hrefused | hopen := settled_or t s
    · rw [compareStep_settled hsettled] at h ⊢
      exact h
    · rw [compareStep_refused hrefused] at h ⊢
      exact h
    · rw [gives_compareStep_open hopen] at h ⊢
      exact h.imp_right (.imp_right (gives_run_mono fun h => compareWithin_succ n h))

theorem left_lt_compareBound (g : Graph) (target source : Ty) (c : Comparison) :
    c.left g target source [] < compareBound g target source := by
  let n := g.size + target.size + source.size + 2
  have htarget : (g.nodes target).length + 1 ≤ n := by
    have hpool := g.length_pool target
    rw [Graph.nodes, length_map]
    omega
  have hsource : (g.nodes source).length ≤ n := by
    have hpool := g.length_pool source
    rw [Graph.nodes, length_map]
    omega
  have hpairs := unseen_le_length (g.nodes target ×ˢ g.nodes source) c.seen
  rw [length_product] at hpairs
  calc
    c.left g target source [] ≤ n * n * n :=
      Nat.mul_le_mul (hpairs.trans (Nat.mul_le_mul (Nat.le_of_succ_le htarget) hsource)) htarget
    _ = n ^ 3 := by rw [Nat.pow_succ, Nat.pow_two]
    _ < n ^ 4 := Nat.pow_lt_pow_right (by omega) (by omega)

theorem compareWithin_ends (g : Graph) (target source : Ty) : ∃ b c',
    Gives (compareWithin g (compareBound g target source) target source) ⟨[], g.next⟩ b c' := by
  obtain ⟨b, c', hrun, -⟩ := compareWithin_total _ (Or.inl (.refl target))
    (.node (.inl (.refl source))) (left_lt_compareBound g target source ⟨[], g.next⟩)
  exact ⟨b, c', hrun⟩

/-- **Comparing two types comes to an end**, however references lead back to themselves. The
comparison has an answer within its bound, and the same one within every larger bound; assignability
is that answer. On the way, merging the members of an intersection is never cut off either. -/
theorem assignable_ends (g : Graph) (target source : Ty) :
    (∃ b c', (∀ n, compareBound g target source ≤ n →
        Gives (compareWithin g n target source) ⟨[], g.next⟩ b c') ∧
      assignable? g target source = some (!target.isUnknown && b)) ∧
    ∀ t, mergeWithin g (g.targets.length + 1) [] [] t ≠ .error .exhausted := by
  refine ⟨?_, fun t => (fields_end g t).2⟩
  obtain ⟨b, c', hrun⟩ := compareWithin_ends g target source
  refine ⟨b, c', fun n hn => ?_, ?_⟩
  · induction hn with
    | refl => exact hrun
    | step _ ih => exact compareWithin_succ _ ih
  · unfold assignable?
    cases target.isUnknown with
    | true => rfl
    | false =>
      rw [if_neg (by simp), show _ = some (b, c') from hrun]
      rfl

end Componentry
