import Componentry.Proofs.Outcome
import Componentry.Types.Assignable

/-!
# Comparisons without a table

A comparison keeps a table of the pairs that it has met. `plainWithin` compares by the same clauses
and keeps none; it says what the answer should be, wherever it has one.

What a clause asks for can be written down beforehand (`clause`): a few probes, all of which or one
of which has to succeed. A probe is an answer that is known at once, a pair of types, or a type
with the members of an intersection merged into one object type. Everything else about one step of
either comparison follows from its probes.

A pair that fits plainly also fits with a table, whatever the table holds
(`compareWithin_of_plain`), since the table only ever turns an answer into a yes.
-/

namespace Componentry

open List

variable {d b : Bool} {c' c : Comparison} {self : CompareTypes} {t s : Ty}

/-- The pair fits without looking at parts. -/
def Settled (target source : Ty) : Prop :=
  target.isTop = true ∨ source.isBottom = true ∨
    (source.isUnknown = false ∧ target.isUnknown = false ∧ target.same source = true)

/-! ## Probes -/

/-- What a clause of the comparison looks at. -/
inductive Probe where
  | known (fits : Bool)
  | pair (target source : Ty)
  /-- The source is an intersection with these fields. -/
  | merged (target : Ty) (fields : List TyField)

/-- The probes of a clause, and the answer of a probe that decides. -/
structure Clause where
  decisive : Bool
  probes : List Probe

/-- All probes have to succeed: the first failure decides. -/
abbrev Clause.all (probes : List Probe) : Clause := ⟨false, probes⟩

/-- One probe has to succeed: the first success decides. -/
abbrev Clause.any (probes : List Probe) : Clause := ⟨true, probes⟩

/-- A field of a target against the fields of a source. -/
def fieldProbe (source : List TyField) (f : TyField) : Probe :=
  match findField source f.name with
  | none => .known f.optional
  | some s => if s.optional && !f.optional then .known false else .pair f.type s.type

/-- What a field of an object type is compared with. -/
theorem fieldProbe_cases (gs : List TyField) (f : TyField) : (∃ b, fieldProbe gs f = .known b ∧
        (b = true → findField gs f.name = none ∧ f.optional = true)) ∨
      ∃ e, findField gs f.name = some e ∧ (e.optional && !f.optional) = false ∧
        fieldProbe gs f = .pair f.type e.type := by
  unfold fieldProbe
  cases hfind : findField gs f.name with
  | none => exact .inl ⟨_, rfl, fun hopt => ⟨rfl, hopt⟩⟩
  | some e =>
    by_cases hclash : (e.optional && !f.optional) = true
    · exact .inl ⟨false, if_pos hclash, by simp⟩
    · exact .inr ⟨e, rfl, by simpa using hclash, if_neg hclash⟩

/-- What the target stands for against the source. -/
def unwrapProbe (g : Graph) (target source : Ty) : Probe :=
  match g.unwrap? target with
  | some t => .pair t source
  | none => .known false

/-- The clause for a target that is no union or intersection, and a source that is neither and is
taken as it is. -/
def partsClause (g : Graph) (target source : Ty) : Clause :=
  match target, source with
  | .primitive _ name, _ => .all [.known (primitiveFits name source)]
  | .array _ e, .array _ f => .all [.pair e f]
  | .array _ e, .tuple _ fs => .all (fs.map (.pair e))
  | .tuple _ es, .tuple _ fs =>
    if es.length = fs.length then .all ((es.zip fs).map fun p => .pair p.1 p.2)
    else .all [.known false]
  | .object _ fs, .object _ gs => .all (fs.map (fieldProbe gs))
  | .reference _ d as _, .reference _ e bs bases =>
    if e.id == d.id then .all [.known (Ty.sameAll bs as)]
    else if d.isClass && e.isClass then .all [.known (inherits e bases d)]
    else .all [unwrapProbe g target source]
  | .reference _ _ _ _, _ => .all [unwrapProbe g target source]
  | _, _ => .all [.known false]

/-- The clause for two types neither of which is a union or an intersection. -/
def simpleClause (g : Graph) (target source : Ty) : Clause :=
  match g.unwrap? source with
  | some s =>
    if target.sameDeclaration source then partsClause g target source else .all [.pair target s]
  | none => partsClause g target source

/-- The clause for two types that are not settled. -/
def clause (g : Graph) (target source : Ty) : Clause :=
  match target, source with
  | _, .union _ members => .all (members.map (.pair target))
  | .union _ members, _ => .any (members.map (.pair · source))
  | .intersection _ members, _ => .all (members.map (.pair · source))
  | _, .intersection _ members =>
    .any (members.map (.pair target) ++ (mergedFields g source).toList.map (.merged target))
  | _, _ => simpleClause g target source

/-- The forms that a clause can have. -/
inductive Clause.For (g : Graph) : Ty → Ty → Clause → Prop where
  | refused {t s : Ty} : Clause.For g t s (.all [.known false])
  | primitive {i : NodeId} {name : String} {s : Ty} :
      Clause.For g (.primitive i name) s (.all [.known (primitiveFits name s)])
  | sameDeclaration {i j : NodeId} {d e : Declaration} {as bs : List Ty}
      {bases bases' : List Declaration} (hid : (e.id == d.id) = true) :
      Clause.For g (.reference i d as bases) (.reference j e bs bases')
        (.all [.known (Ty.sameAll bs as)])
  | classes {i j : NodeId} {d e : Declaration} {as bs : List Ty}
      {bases bases' : List Declaration} (hid : ¬ (e.id == d.id) = true)
      (hclass : (d.isClass && e.isClass) = true) :
      Clause.For g (.reference i d as bases) (.reference j e bs bases')
        (.all [.known (inherits e bases' d)])
  | unionSource {t : Ty} {i : NodeId} {ms : List Ty} :
      Clause.For g t (.union i ms) (.all (ms.map (.pair t)))
  | unionTarget {s : Ty} {i : NodeId} {ms : List Ty} :
      Clause.For g (.union i ms) s (.any (ms.map (.pair · s)))
  | intersectionTarget {s : Ty} {i : NodeId} {ms : List Ty} :
      Clause.For g (.intersection i ms) s (.all (ms.map (.pair · s)))
  | intersectionSource {t : Ty} {i : NodeId} {ms : List Ty} :
      Clause.For g t (.intersection i ms)
        (.any (ms.map (.pair t) ++ (mergedFields g (.intersection i ms)).toList.map (.merged t)))
  | unwrapSource {t s s' : Ty} (h : g.unwrap? s = some s') :
      Clause.For g t s (.all [.pair t s'])
  | unwrapTarget {t s t' : Ty} (h : g.unwrap? t = some t') :
      Clause.For g t s (.all [.pair t' s])
  | arrays {i j : NodeId} {e f : Ty} : Clause.For g (.array i e) (.array j f) (.all [.pair e f])
  | arrayOfTuple {i j : NodeId} {e : Ty} {fs : List Ty} :
      Clause.For g (.array i e) (.tuple j fs) (.all (fs.map (.pair e)))
  | tuples {i j : NodeId} {es fs : List Ty} (hlen : es.length = fs.length) :
      Clause.For g (.tuple i es) (.tuple j fs) (.all ((es.zip fs).map fun p => .pair p.1 p.2))
  | objects {i j : NodeId} {fs gs : List TyField} :
      Clause.For g (.object i fs) (.object j gs) (.all (fs.map (fieldProbe gs)))

section Forms

variable {g : Graph}

theorem for_unwrapProbe (t s : Ty) : Clause.For g t s (.all [unwrapProbe g t s]) := by
  unfold unwrapProbe
  cases hu : g.unwrap? t with
  | none => exact .refused
  | some t' => exact .unwrapTarget hu

theorem for_partsClause (t s : Ty) : Clause.For g t s (partsClause g t s) := by
  unfold partsClause
  split
  · exact .primitive
  · exact .arrays
  · exact .arrayOfTuple
  · split
    · next hlen => exact .tuples hlen
    · exact .refused
  · exact .objects
  · split
    · next hid => exact .sameDeclaration hid
    · next hid =>
        split
        · next hclass => exact .classes hid hclass
        · exact for_unwrapProbe _ _
  · exact for_unwrapProbe _ _
  · exact .refused

theorem for_simpleClause (t s : Ty) : Clause.For g t s (simpleClause g t s) := by
  unfold simpleClause
  split
  · next s' hs =>
      split
      · exact for_partsClause t s
      · exact .unwrapSource hs
  · exact for_partsClause t s

theorem for_clause (t s : Ty) : Clause.For g t s (clause g t s) := by
  unfold clause
  split
  · exact .unionSource
  · exact .unionTarget
  · exact .intersectionTarget
  · exact .intersectionSource
  · exact for_simpleClause t s

theorem Clause.For.decisive {cl : Clause} (h : Clause.For g t s cl) (ht : t.isCompound = false)
    (hs : s.isCompound = false) : cl.decisive = false := by
  cases h with
  | unionTarget => cases ht
  | intersectionSource => cases hs
  | _ => rfl

theorem Clause.For.unmerged {cl : Clause} (h : Clause.For g t s cl) (hd : cl.decisive = false)
    (t' : Ty) (fields : List TyField) : .merged t' fields ∉ cl.probes := by
  cases h with
  | unionTarget | intersectionSource => cases hd
  | @objects i j fs gs =>
    intro hp
    obtain ⟨f, -, hf⟩ := mem_map.1 hp
    obtain ⟨b, hknown, -⟩ | ⟨e, -, -, hpair⟩ := fieldProbe_cases gs f
    · rw [hknown] at hf
      cases hf
    · rw [hpair] at hf
      cases hf
  | _ => simp

end Forms

/-! ## Probes with a table -/

/-- Look at a probe. -/
def Probe.run (self : CompareTypes) : Probe → Compare Bool
  | .known b => return b
  | .pair t s => self t s
  | .merged t fields => do self t (.object (← Compare.fresh) fields)

/-- Look at the probes of a clause, as far as needed. -/
def Clause.run (self : CompareTypes) : Clause → Compare Bool
  | ⟨false, ps⟩ => Compare.every (Probe.run self) ps
  | ⟨true, ps⟩ => Compare.some (Probe.run self) ps

namespace Compare

variable {α β : Type} {test : α → Compare Bool}

theorem every_one (a : α) : every test [a] = test a := by
  have hpure : (fun b => if b = true then every test [] else pure false) =
      (pure : Bool → Compare Bool) := by
    funext b
    cases b <;> rfl
  rw [every, hpure, bind_pure]

theorem every_map (test : β → Compare Bool) (f : α → β) : ∀ as : List α,
    every test (as.map f) = every (fun a => test (f a)) as
  | [] => rfl
  | a :: as => by
    rw [map_cons, every, every, every_map test f as]

theorem some_map (test : β → Compare Bool) (f : α → β) : ∀ as : List α,
    Compare.some test (as.map f) = Compare.some (fun a => test (f a)) as
  | [] => rfl
  | a :: as => by
    rw [map_cons, Compare.some, Compare.some, some_map test f as]

/-- A choice between the items of two lists. -/
theorem some_append (bs : List α) : ∀ as : List α, Compare.some test (as ++ bs) =
    (do if ← Compare.some test as then return true else Compare.some test bs)
  | [] => by
    rw [nil_append, Compare.some, pure_bind]
    rfl
  | a :: as => by
    rw [cons_append, Compare.some, some_append bs as, Compare.some, bind_assoc]
    refine bind_congr fun b => ?_
    cases b with
    | true => rw [if_pos rfl, if_pos rfl, pure_bind]; rfl
    | false => rfl

theorem some_one (a : α) : Compare.some test [a] = test a := by
  have hpure : (fun b => if b = true then pure true else Compare.some test []) =
      (pure : Bool → Compare Bool) := by
    funext b
    cases b <;> rfl
  rw [Compare.some, hpure, bind_pure]

end Compare

/-- What is left of a step of the comparison once the pair is noted. -/
def clauses (g : Graph) (self : CompareTypes) (target source : Ty) : Compare Bool :=
  match source with
  | .union _ members => Compare.every (self target) members
  | _ => targetFits g self target source

section Clauses

variable {g : Graph} {self : CompareTypes}

theorem Clause.run_one (p : Probe) : (Clause.all [p]).run self = p.run self := Compare.every_one p

theorem Clause.run_map {α : Type} (f : α → Probe) (as : List α) :
    (Clause.all (as.map f)).run self = Compare.every (fun a => (f a).run self) as :=
  Compare.every_map _ f as

theorem unwrapProbe_run (t s : Ty) : (match g.unwrap? t with
      | some t' => self t' s
      | none => return false) = (Clause.all [unwrapProbe g t s]).run self := by
  rw [Clause.run_one, unwrapProbe]
  cases g.unwrap? t <;> rfl

theorem fieldsFit_run (source fs : List TyField) :
    fieldsFit self source fs = (Clause.all (fs.map (fieldProbe source))).run self := by
  rw [Clause.run_map, fieldsFit]
  congr 1
  funext f
  unfold fieldProbe
  cases findField source f.name with
  | none => rfl
  | some s =>
    dsimp only
    split <;> rfl

theorem partsFit_run (t s : Ty) : partsFit g self t s = (partsClause g t s).run self := by
  unfold partsFit
  split
  · exact (Clause.run_one (.known _)).symm
  · exact (Clause.run_one (.pair _ _)).symm
  · exact (Clause.run_map (.pair _) _).symm
  · rw [partsClause, elementsFit]
    split
    · rw [Clause.run_map]
      rfl
    · exact (Clause.run_one (.known _)).symm
  · exact fieldsFit_run _ _
  · rw [partsClause]
    split
    · exact (Clause.run_one (.known _)).symm
    · split
      · exact (Clause.run_one (.known _)).symm
      · exact unwrapProbe_run _ _
  · next hplain =>
      cases s with
      | reference => exact absurd rfl (hplain _ _ _ _)
      | _ => exact unwrapProbe_run _ _
  · rw [partsClause, Clause.run_one]
    · rfl
    all_goals assumption

theorem simpleClause_run (t s : Ty) : (match g.unwrap? s with
      | some b => if t.sameDeclaration s then partsFit g self t s else self t b
      | none => partsFit g self t s) = (simpleClause g t s).run self := by
  rw [simpleClause]
  cases g.unwrap? s with
  | none => exact partsFit_run t s
  | some b =>
    dsimp only
    split
    · exact partsFit_run t s
    · exact (Clause.run_one (.pair t b)).symm

theorem intersectionSource_run (t : Ty) (i : NodeId) (ms : List Ty) : (do
      if ← Compare.some (self t) ms then return true
      match mergedFields g (.intersection i ms) with
      | some fields => self t (.object (← Compare.fresh) fields)
      | none => return false) =
      (Clause.any (ms.map (.pair t) ++
        (mergedFields g (.intersection i ms)).toList.map (.merged t))).run self := by
  rw [Clause.run, Compare.some_append, Compare.some_map]
  refine bind_congr fun b => ?_
  cases b with
  | true => rfl
  | false =>
    cases mergedFields g (.intersection i ms) with
    | none => rfl
    | some fields =>
      rw [Option.toList_some, map_singleton, Compare.some_one]
      rfl

/-- The comparison looks at the probes of the clause. -/
theorem clauses_run (t s : Ty) : clauses g self t s = (clause g t s).run self := by
  have hsimple : _ = (simpleClause g t s).run self := simpleClause_run t s
  cases s with
  | union j ns =>
    have hclause : clause g t (.union j ns) = .all (ns.map (.pair t)) := by
      cases t <;> rfl
    rw [hclause]
    exact (Clause.run_map (.pair t) ns).symm
  | intersection j ns =>
    cases t with
    | union i ms => exact (Compare.some_map (Probe.run self) (.pair · _) ms).symm
    | intersection i ms => exact (Clause.run_map (.pair · _) ms).symm
    | _ => exact intersectionSource_run _ j ns
  | _ =>
    cases t with
    | union i ms => exact (Compare.some_map (Probe.run self) (.pair · _) ms).symm
    | intersection i ms => exact (Clause.run_map (.pair · _) ms).symm
    | _ => exact hsimple

end Clauses

/-! ## Probes in turn -/

section Loops

variable {self : CompareTypes}

theorem gives_run_nil : Gives ((Clause.mk d []).run self) c b c' ↔ b = !d ∧ c = c' := by
  cases d with
  | false => rw [Clause.run, Compare.every, gives_pure, eq_comm]; rfl
  | true => rw [Clause.run, Compare.some, gives_pure, eq_comm]; rfl

/-- The first probe decides, or the others do. -/
theorem gives_run_cons {p : Probe} {ps : List Probe} :
    Gives ((Clause.mk d (p :: ps)).run self) c b c' ↔ (b = d ∧ Gives (p.run self) c d c') ∨
        ∃ c₁, Gives (p.run self) c (!d) c₁ ∧ Gives ((Clause.mk d ps).run self) c₁ b c' := by
  have hdecided : ∀ {c₁ : Comparison}, Gives (pure d : Compare Bool) c₁ b c' ↔ b = d ∧ c₁ = c' := by
    intro c₁
    rw [gives_pure, eq_comm]
  have hrun : (Clause.mk d (p :: ps)).run self = (do
      let b ← p.run self
      if b = d then return d else (Clause.mk d ps).run self) := by
    cases d with
    | false =>
      rw [Clause.run, Compare.every]
      refine bind_congr fun b => ?_
      cases b <;> rfl
    | true =>
      rw [Clause.run, Compare.some]
      refine bind_congr fun b => ?_
      cases b <;> rfl
  rw [hrun, gives_bind]
  constructor
  · rintro ⟨b₁, c₁, hp, h⟩
    by_cases hb : b₁ = d
    · subst hb
      rw [if_pos rfl] at h
      obtain ⟨rfl, rfl⟩ := hdecided.1 h
      exact .inl ⟨rfl, hp⟩
    · rw [if_neg hb] at h
      obtain rfl : b₁ = !d := Bool.eq_not_of_ne hb
      exact .inr ⟨c₁, hp, h⟩
  · rintro (⟨rfl, hp⟩ | ⟨c₁, hp, h⟩)
    · refine ⟨b, c', hp, ?_⟩
      rw [if_pos rfl]
      exact hdecided.2 ⟨rfl, rfl⟩
    · refine ⟨!d, c₁, hp, ?_⟩
      rw [if_neg (by cases d <;> simp)]
      exact h

theorem gives_merged {fields : List TyField} : Gives ((Probe.merged t fields).run self) c b c' ↔
      Gives (self t (.object c.next fields)) { c with next := c.next + 1 } b c' := by
  unfold Probe.run Compare.fresh
  exact .rfl

/-- What every probe of a clause does to the table, the clause does, if it can be done again and
again. -/
theorem Clause.run_induction {R : Comparison → Comparison → Prop} (hrefl : ∀ c, R c c)
    (htrans : ∀ {c₁ c₂ c₃}, R c₁ c₂ → R c₂ c₃ → R c₁ c₃) : ∀ {ps : List Probe},
    (∀ p ∈ ps, ∀ {c b c'}, Gives (p.run self) c b c' → R c c') → ∀ {c c' : Comparison} {b : Bool},
    Gives ((Clause.mk d ps).run self) c b c' → R c c'
  | [], _, c, c', b, h => by
    obtain ⟨-, rfl⟩ := gives_run_nil.1 h
    exact hrefl c
  | p :: ps, hstep, c, c', b, h => by
    obtain ⟨-, hp⟩ | ⟨c₁, hp, hps⟩ := gives_run_cons.1 h
    · exact hstep p mem_cons_self hp
    · have hrest := fun q hq => @hstep q (mem_cons_of_mem _ hq)
      exact htrans (hstep p mem_cons_self hp) (Clause.run_induction hrefl htrans hrest hps)

/-- A clause has a result if its probes have, where `I` holds before and after each. -/
theorem Clause.run_total {I : Comparison → Prop} : ∀ {ps : List Probe},
    (∀ p ∈ ps, ∀ c, I c → ∃ b c', Gives (p.run self) c b c' ∧ I c') → ∀ c : Comparison, I c →
    ∃ b c', Gives ((Clause.mk d ps).run self) c b c' ∧ I c'
  | [], _, c, hI => ⟨!d, c, gives_run_nil.2 ⟨rfl, rfl⟩, hI⟩
  | p :: ps, h, c, hI => by
    obtain ⟨b, c₁, hp, hI₁⟩ := h p mem_cons_self c hI
    by_cases hb : b = d
    · subst hb
      exact ⟨b, c₁, gives_run_cons.2 (.inl ⟨rfl, hp⟩), hI₁⟩
    · obtain rfl : b = !d := Bool.eq_not_of_ne hb
      have hrest := fun q hq => h q (mem_cons_of_mem _ hq)
      obtain ⟨b, c', hps, hI'⟩ := Clause.run_total hrest c₁ hI₁
      exact ⟨b, c', gives_run_cons.2 (.inr ⟨c₁, hp, hps⟩), hI'⟩

end Loops

/-! ## The comparison without a table -/

/-- A comparison that leaves the table alone. -/
def untabled (self : Ty → Ty → Option Bool) : CompareTypes := fun t s c => (self t s).map (·, c)

/-- One step of the comparison without a table: the clauses of `compareStep`, but nothing is
noted. -/
def plainStep (g : Graph) (self : Ty → Ty → Option Bool) (target source : Ty) : Option Bool :=
  if target.isTop || source.isBottom then some true
  else if source.isUnknown || target.isUnknown then some false
  else if target.same source then some true
  else ((clauses g (untabled self) target source).run ⟨[], g.next⟩).map Prod.fst

/-- The comparison without a table, with at most `n` steps inside one another. -/
def plainWithin (g : Graph) : Nat → Ty → Ty → Option Bool
  | 0 => fun _ _ => none
  | n + 1 => plainStep g (plainWithin g n)

/-- The source fits the target, if nothing is taken to fit on the way. -/
def Fits (g : Graph) (target source : Ty) : Prop := ∃ n, plainWithin g n target source = some true

/-- Object types that differ in their number only are told the same. -/
def Numberless (self : Ty → Ty → Option Bool) : Prop :=
  ∀ t i j fields, self t (.object i fields) = self t (.object j fields)

/-- The answer to a probe. -/
def Probe.eval (self : Ty → Ty → Option Bool) : Probe → Option Bool
  | .known b => some b
  | .pair t s => self t s
  | .merged t fields => self t (.object 0 fields)

/-- The answer to a clause that `d` decides. -/
def Probe.evalAll (self : Ty → Ty → Option Bool) (d : Bool) : List Probe → Option Bool
  | [] => some !d
  | p :: ps => (p.eval self).bind fun b => if b = d then some d else Probe.evalAll self d ps

/-- The answer to a clause. -/
def Clause.eval (self : Ty → Ty → Option Bool) (cl : Clause) : Option Bool :=
  Probe.evalAll self cl.decisive cl.probes

/-- The pair is not settled, and a type of it is not known. -/
structure Refused (target source : Ty) : Prop where
  top : target.isTop = false
  bottom : source.isBottom = false
  unknown : (source.isUnknown || target.isUnknown) = true

/-- The pair is compared by its clause. -/
structure Open (target source : Ty) : Prop where
  top : target.isTop = false
  bottom : source.isBottom = false
  known : (source.isUnknown || target.isUnknown) = false
  differ : target.same source = false

theorem Open.not_settled (h : Open t s) : ¬ Settled t s := by
  rintro (htop | hbottom | ⟨-, -, hsame⟩)
  · rw [h.top] at htop
    cases htop
  · rw [h.bottom] at hbottom
    cases hbottom
  · rw [h.differ] at hsame
    cases hsame

theorem settled_or (t s : Ty) : Settled t s ∨ Refused t s ∨ Open t s := by
  unfold Settled
  cases htop : t.isTop with
  | true => exact .inl (.inl rfl)
  | false =>
    cases hbottom : s.isBottom with
    | true => exact .inl (.inr (.inl rfl))
    | false =>
      cases hknown : s.isUnknown || t.isUnknown with
      | true => exact .inr (.inl ⟨htop, hbottom, hknown⟩)
      | false =>
        cases hsame : t.same s with
        | false => exact .inr (.inr ⟨htop, hbottom, hknown, hsame⟩)
        | true =>
          rw [Bool.or_eq_false_iff] at hknown
          exact .inl (.inr (.inr ⟨hknown.1, hknown.2, rfl⟩))

section Steps

variable {g : Graph} {t s : Ty}

theorem compareStep_settled (h : Settled t s) : compareStep g self t s = pure true := by
  unfold compareStep
  obtain h | h | ⟨hs, ht, h⟩ := h
  · simp [h]
  · simp [h]
  · simp [hs, ht, h]

theorem compareStep_refused (h : Refused t s) : compareStep g self t s = pure false := by
  unfold compareStep
  rw [h.top, h.bottom, h.unknown]
  rfl

theorem compareStep_open (h : Open t s) : compareStep g self t s = (do
      if !(← Compare.note t s) then return true
      clauses g self t s) := by
  unfold compareStep
  rw [h.top, h.bottom, h.known, h.differ]
  rfl

theorem gives_note :
    Gives (Compare.note t s) c b c' ↔ ((t.id, s.id) ∈ c.seen ∧ b = false ∧ c' = c) ∨
      (t.id, s.id) ∉ c.seen ∧ b = true ∧ c' = { c with seen := (t.id, s.id) :: c.seen } := by
  have hrun : (Compare.note t s).run c = if c.seen.contains (t.id, s.id) then some (false, c)
      else some (true, { c with seen := (t.id, s.id) :: c.seen }) := by
    unfold Compare.note
    simp only [StateT.run_bind, StateT.run_get, Option.pure_def, Option.bind_eq_bind,
      Option.bind_some]
    split <;> rfl
  unfold Gives
  rw [hrun]
  by_cases hseen : (t.id, s.id) ∈ c.seen
  · rw [if_pos (by simpa using hseen)]
    simp [hseen, eq_comm]
  · rw [if_neg (by simpa using hseen)]
    simp [hseen, eq_comm]

/-- A pair that is open is taken to fit if it was met before; otherwise its clause is run. -/
theorem gives_compareStep_open (h : Open t s) :
    Gives (compareStep g self t s) c b c' ↔ ((t.id, s.id) ∈ c.seen ∧ b = true ∧ c' = c) ∨
      (t.id, s.id) ∉ c.seen ∧
        Gives ((clause g t s).run self) { c with seen := (t.id, s.id) :: c.seen } b c' := by
  rw [compareStep_open h, gives_bind, ← clauses_run]
  constructor
  · rintro ⟨new, c₁, hnote, h⟩
    obtain ⟨hseen, rfl, rfl⟩ | ⟨hseen, rfl, rfl⟩ := gives_note.1 hnote
    · obtain ⟨rfl, rfl⟩ := gives_pure.1 h
      exact .inl ⟨hseen, rfl, rfl⟩
    · exact .inr ⟨hseen, h⟩
  · rintro (⟨hseen, rfl, rfl⟩ | ⟨hseen, h⟩)
    · exact ⟨false, c', gives_note.2 (.inl ⟨hseen, rfl, rfl⟩), gives_pure.2 ⟨rfl, rfl⟩⟩
    · exact ⟨true, _, gives_note.2 (.inr ⟨hseen, rfl, rfl⟩), h⟩

variable {self : Ty → Ty → Option Bool}

theorem plainStep_settled (h : Settled t s) : plainStep g self t s = some true := by
  unfold plainStep
  obtain h | h | ⟨hs, ht, h⟩ := h
  · simp [h]
  · simp [h]
  · simp [hs, ht, h]

theorem plainStep_refused (h : Refused t s) : plainStep g self t s = some false := by
  unfold plainStep
  rw [h.top, h.bottom, h.unknown]
  rfl

theorem gives_untabled (hself : Numberless self) (p : Probe) (c : Comparison) (b : Bool) :
    (∃ c', Gives (p.run (untabled self)) c b c') ↔ p.eval self = some b := by
  have hpair : ∀ {t s : Ty} (c : Comparison),
      (∃ c', Gives (untabled self t s) c b c') ↔ self t s = some b := by
    intro t s c
    unfold Gives untabled
    cases self t s <;> simp [StateT.run]
  cases p with
  | known b' =>
    simp only [Probe.run, Probe.eval, gives_pure]
    simp
  | pair t s => exact hpair c
  | merged t fields =>
    simp only [gives_merged, Probe.eval]
    rw [hpair, hself t c.next 0 fields]

theorem gives_untabled_all (hself : Numberless self) (d b : Bool) : ∀ (ps : List Probe)
    (c : Comparison), (∃ c', Gives ((Clause.mk d ps).run (untabled self)) c b c') ↔
      Probe.evalAll self d ps = some b
  | [], c => by
    simp only [gives_run_nil, Probe.evalAll]
    simp [eq_comm]
  | p :: ps, c => by
    simp only [gives_run_cons, Probe.evalAll, Option.bind_eq_some_iff]
    constructor
    · rintro ⟨c', ⟨rfl, hp⟩ | ⟨c₁, hp, hps⟩⟩
      · exact ⟨b, (gives_untabled hself p c b).1 ⟨c', hp⟩, if_pos rfl⟩
      · refine ⟨!d, (gives_untabled hself p c _).1 ⟨c₁, hp⟩, ?_⟩
        rw [if_neg (by cases d <;> simp)]
        exact (gives_untabled_all hself d b ps c₁).1 ⟨c', hps⟩
    · rintro ⟨b₁, hp, h⟩
      obtain ⟨c₁, hrun⟩ := (gives_untabled hself p c b₁).2 hp
      by_cases hb : b₁ = d
      · subst hb
        rw [if_pos rfl] at h
        cases h
        exact ⟨c₁, Or.inl ⟨rfl, hrun⟩⟩
      · rw [if_neg hb] at h
        obtain rfl : b₁ = !d := Bool.eq_not_of_ne hb
        obtain ⟨c', hps⟩ := (gives_untabled_all hself d b ps c₁).2 h
        exact ⟨c', .inr ⟨c₁, hrun, hps⟩⟩

theorem plainStep_open (hself : Numberless self) (h : Open t s) :
    plainStep g self t s = (clause g t s).eval self := by
  unfold plainStep
  rw [h.top, h.bottom, h.known, h.differ, clauses_run]
  refine Option.ext fun b => ?_
  rw [Clause.eval, ← gives_untabled_all hself _ _ _ ⟨[], g.next⟩]
  simp [Gives]

end Steps

/-! ## The answers of the plain comparison -/

section Answers

variable {g : Graph} {self other : Ty → Ty → Option Bool}

theorem evalAll_congr {α : Type} {f f' : α → Probe} (h : ∀ a, (f a).eval self = (f' a).eval self)
    (as : List α) : Probe.evalAll self d (as.map f) = Probe.evalAll self d (as.map f') := by
  induction as with
  | nil => rfl
  | cons a as ih => rw [map_cons, map_cons, Probe.evalAll, Probe.evalAll, h, ih]

/-- An answer stays if more is answered. -/
theorem evalAll_mono (h : ∀ {t s b}, self t s = some b → other t s = some b) :
    ∀ {ps : List Probe}, Probe.evalAll self d ps = some b → Probe.evalAll other d ps = some b
  | [], hb => hb
  | p :: ps, hb => by
    obtain ⟨b₁, hp, hps⟩ := Option.bind_eq_some_iff.1 hb
    have hp' : p.eval other = some b₁ := by
      cases p with
      | known b' => exact hp
      | pair t s | merged t fields => exact h hp
    rw [Probe.evalAll, hp', Option.bind_some]
    by_cases hb₁ : b₁ = d
    · rw [if_pos hb₁] at hps ⊢
      exact hps
    · rw [if_neg hb₁] at hps ⊢
      exact evalAll_mono h hps

/-- A clause has an answer if its probes have. -/
theorem evalAll_total : ∀ {ps : List Probe}, (∀ p ∈ ps, ∃ b, p.eval self = some b) →
    ∃ b, Probe.evalAll self d ps = some b
  | [], _ => ⟨!d, rfl⟩
  | p :: ps, h => by
    obtain ⟨b₁, hp⟩ := h p mem_cons_self
    rw [Probe.evalAll, hp, Option.bind_some]
    split
    · exact ⟨d, rfl⟩
    · exact evalAll_total fun q hq => h q (mem_cons_of_mem _ hq)

theorem eval_object (hself : Numberless self) (t : Ty) (i j : NodeId) (fields : List TyField) :
    (clause g t (.object i fields)).eval self = (clause g t (.object j fields)).eval self := by
  have hpair : ∀ t : Ty, (Probe.pair t (.object i fields)).eval self =
      (Probe.pair t (.object j fields)).eval self := fun t => hself t i j fields
  cases t with
  | union k ms | intersection k ms => exact evalAll_congr hpair ms
  | reference k d as bases =>
    -- an object type has no declaration, so only what the reference stands for can fit it
    have hunwrap : ∀ i, clause g (.reference k d as bases) (.object i fields) =
        .all [unwrapProbe g (.reference k d as bases) (.object i fields)] := fun _ => rfl
    have hprobe : (unwrapProbe g (.reference k d as bases) (.object i fields)).eval self =
        (unwrapProbe g (.reference k d as bases) (.object j fields)).eval self := by
      unfold unwrapProbe
      cases g.unwrap? (.reference k d as bases) with
      | none => rfl
      | some t => exact hpair t
    simp only [hunwrap, Clause.eval, Probe.evalAll, hprobe]
  | _ => rfl

theorem plainWithin_numberless : ∀ n, Numberless (plainWithin g n)
  | 0 => fun _ _ _ _ => rfl
  | n + 1 => by
    intro t i j fields
    have hsame : t.same (.object i fields) = t.same (.object j fields) := by
      cases t <;> simp [Ty.same]
    have hself := plainWithin_numberless n
    show plainStep g _ t _ = plainStep g _ t _
    obtain hsettled | hrefused | hopen := settled_or t (.object i fields)
    · have hsettled' : Settled t (.object j fields) := by
        unfold Settled at hsettled ⊢
        rw [← hsame]
        exact hsettled
      rw [plainStep_settled hsettled, plainStep_settled hsettled']
    · have hrefused' : Refused t (.object j fields) :=
        ⟨hrefused.top, rfl, hrefused.unknown⟩
      rw [plainStep_refused hrefused, plainStep_refused hrefused']
    · have hopen' : Open t (.object j fields) :=
        ⟨hopen.top, rfl, hopen.known, hsame ▸ hopen.differ⟩
      rw [plainStep_open hself hopen, plainStep_open hself hopen', eval_object hself t i j]

theorem plainWithin_succ : ∀ (n : Nat) {t s : Ty} {b : Bool}, plainWithin g n t s = some b →
    plainWithin g (n + 1) t s = some b
  | 0, t, s, b, h => by cases h
  | n + 1, t, s, b, h => by
    have h : plainStep g (plainWithin g n) t s = some b := h
    show plainStep g (plainWithin g (n + 1)) t s = some b
    obtain hsettled | hrefused | hopen := settled_or t s
    · rw [plainStep_settled hsettled] at h ⊢
      exact h
    · rw [plainStep_refused hrefused] at h ⊢
      exact h
    · rw [plainStep_open (plainWithin_numberless _) hopen] at h ⊢
      exact evalAll_mono (fun hself => plainWithin_succ n hself) h

theorem plainWithin_le {n m : Nat} (hnm : n ≤ m) (h : plainWithin g n t s = some b) :
    plainWithin g m t s = some b := by
  induction hnm with
  | refl => exact h
  | step _ ih => exact plainWithin_succ _ ih

/-- The plain comparison has at most one answer, whatever its bound. -/
theorem plainWithin_unique {n m : Nat} {b' : Bool} (h : plainWithin g n t s = some b)
    (h' : plainWithin g m t s = some b') : b = b' := by
  have hmax := plainWithin_le (Nat.le_max_left n m) h
  rw [plainWithin_le (Nat.le_max_right n m) h'] at hmax
  exact (Option.some.inj hmax).symm

end Answers

/-! ## A table only adds successes -/

/-- If all probes that succeed plainly succeed with a table, so does a clause. -/
theorem run_of_evalAll {plain : Ty → Ty → Option Bool} : ∀ {ps : List Probe},
    (∀ p ∈ ps, p.eval plain = some true → ∀ {c b c'}, Gives (p.run self) c b c' → b = true) →
    Probe.evalAll plain d ps = some true → ∀ {c c' : Comparison} {b : Bool},
    Gives ((Clause.mk d ps).run self) c b c' → b = true
  | [], _, heval, c, c', b, h => by
    obtain ⟨rfl, -⟩ := gives_run_nil.1 h
    exact Option.some.inj heval
  | p :: ps, hstep, heval, c, c', b, h => by
    obtain ⟨b₁, hp, hps⟩ := Option.bind_eq_some_iff.1 heval
    -- if a failure decides, no probe failed; if a success decides, one of the others succeeded
    have hrest : (d = false → b₁ = true) ∧ (b₁ ≠ d → Probe.evalAll plain d ps = some true) := by
      by_cases hb : b₁ = d
      · rw [if_pos hb] at hps
        cases hps
        exact ⟨by simp, fun h => absurd hb h⟩
      · rw [if_neg hb] at hps
        exact ⟨fun h => by simpa [h] using hb, fun _ => hps⟩
    obtain ⟨rfl, hrun⟩ | ⟨c₁, hrun, hruns⟩ := gives_run_cons.1 h
    · cases b with
      | true => rfl
      | false =>
        obtain rfl := hrest.1 rfl
        exact hstep p mem_cons_self hp hrun
    · refine run_of_evalAll (fun q hq => @hstep q (mem_cons_of_mem _ hq)) ?_ hruns
      refine hrest.2 ?_
      rintro rfl
      cases b₁ with
      | true => exact absurd (hstep p mem_cons_self hp hrun) (by simp)
      | false => exact absurd (hrest.1 rfl) (by simp)

/-- A pair that fits plainly fits, whatever the table holds. -/
theorem compareWithin_of_plain {g : Graph} : ∀ (n : Nat) {m : Nat} {t s : Ty} {c c' : Comparison}
    {b : Bool}, plainWithin g m t s = some true → Gives (compareWithin g n t s) c b c' → b = true
  | 0, m, t, s, c, c', b, _, h => absurd h not_gives_failure
  | n + 1, 0, t, s, c, c', b, hplain, h => by cases hplain
  | n + 1, m + 1, t, s, c, c', b, hplain, h => by
    have hplain : plainStep g (plainWithin g m) t s = some true := hplain
    have h : Gives (compareStep g (compareWithin g n) t s) c b c' := h
    obtain hsettled | hrefused | hopen := settled_or t s
    · rw [compareStep_settled hsettled] at h
      exact (gives_pure.1 h).1.symm
    · rw [plainStep_refused hrefused] at hplain
      cases hplain
    · rw [plainStep_open (plainWithin_numberless m) hopen] at hplain
      obtain ⟨-, rfl, -⟩ | ⟨-, hrun⟩ := (gives_compareStep_open hopen).1 h
      · -- met before: the table says yes
        rfl
      · refine run_of_evalAll ?_ hplain hrun
        intro p _ hp c₁ b₁ c₂ hrun
        cases p with
        | known b' =>
          cases hp
          exact (gives_pure.1 hrun).1.symm
        | pair t' s' => exact compareWithin_of_plain n hp hrun
        | merged t' fields =>
          rw [Probe.eval, plainWithin_numberless m t' 0 c₁.next] at hp
          exact compareWithin_of_plain n hp (gives_merged.1 hrun)

end Componentry
