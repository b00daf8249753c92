import Componentry.Proofs.Guard.Repetition
import Componentry.Proofs.Guard.Unrolling

/-!
# Compilers after a failure

Compiling fails if a declaration has no name, and keeps what was done before. A name is defined when
its body is compiled, but the bodies that it leads to may be done earlier and refer to it already.
When the failure comes in between, the name is abandoned: it is never defined, and the guards that
refer to it stay. So after a failure the named guards need not be closed
(`dangling_after_failure`), and what a later call returns may rest on such a guard.

`Compiler.Adds` says what a call does to the named guards, whether it succeeds or not: some are
added, and these refer to names that are defined, or lost. A call that succeeds loses none
(`Compiler.Grows`). One that fails loses names of references which lead to a declaration without a
name (`guard_breaks`). This carries over to any sequence of calls (`references_defined_or_lost`).
-/

namespace Componentry

open List

variable {g : Graph} {t u : Ty} {ts : List Ty} {build : List Guard → Guard} {c c₁ c' : Compiler}
  {e : Diagnostic} {o : Option (Diagnostic × Compiler)} {follow : Compile.CompileAt}
  {underWay : List String} {key : String}

/-! ## Compiling that stops -/

namespace Compile

/-- Looking at the compiler does not stop. -/
theorem stops_get {α : Type} {f : Compiler → Compile α} (h : Stops (get >>= f) c o) :
    Stops (f c) c o := by
  obtain h | ⟨_, _, hget, h⟩ := h.of_bind
  · exact absurd h (Yields.not_stops (yields_get.2 ⟨rfl, rfl⟩))
  · obtain ⟨rfl, rfl⟩ := yields_get.1 hget
    exact h

/-- An identifier fails for want of a name. -/
theorem stops_uid {d : Declaration} (h : Stops (uid d) c o) :
    d.name = "" ∧ ∃ e, o = some (e, c) := by
  replace h := stops_get h
  cases hu : c.ids.uid d with
  | ok p =>
    simp only [hu] at h
    cases o <;> cases h
  | error err =>
    simp only [hu] at h
    unfold Registry.uid at hu
    split at hu
    · cases hu
    · split at hu
      · next hname =>
          refine ⟨hname, err, ?_⟩
          cases o with
          | none => cases h
          | some p =>
            cases h
            rfl
      · cases hu

/-- A reference stops for want of a name, or in its body. -/
theorem stops_reference {i : NodeId} {d : Declaration} {args : List Ty}
    (h : Stops (reference g follow underWay i d args) c o) :
    (d.name = "" ∧ ∃ e, o = some (e, c)) ∨ ∃ u ids b, c.ids.uid d = .ok (u, ids) ∧
      d.kind ≠ .classDecl ∧ applicationKey u args ∉ underWay ∧ g.target? i = some b ∧
      Stops (follow (applicationKey u args :: underWay) b) { c with ids } o := by
  obtain h | ⟨u, c₀, hu, h⟩ := h.of_bind
  · exact .inl (stops_uid h)
  · obtain ⟨ids, hids, rfl⟩ := yields_uid hu
    right
    split at h
    · exact absurd h not_stops_pure
    · next hk =>
        replace h := stops_get h
        split at h
        · exact absurd h not_stops_pure
        · next hnew =>
            rw [Bool.or_eq_true, contains_iff_mem, not_or] at hnew
            cases ht : g.target? i with
            | none =>
              simp only [ht] at h
              exact absurd h (Yields.not_stops (yields_warn.2 ⟨rfl, rfl⟩))
            | some b =>
              simp only [ht] at h
              obtain h | ⟨r, c₁, -, h⟩ := h.of_bind
              · exact ⟨u, ids, b, hids, hk, hnew.2, rfl, h⟩
              · cases o <;> cases h

/-- Guards are compiled for several types, one after another, until one stops. -/
inductive BreaksOff (follow : CompileAt) (underWay : List String)
    (o : Option (Diagnostic × Compiler)) : List Ty → Compiler → Prop
  | here {t : Ty} {ts : List Ty} {c : Compiler} (h : Stops (follow underWay t) c o) :
      BreaksOff follow underWay o (t :: ts) c
  | later {t : Ty} {ts : List Ty} {c c₁ : Compiler} {r : Guard}
      (h : Yields (follow underWay t) c r c₁) (hrest : BreaksOff follow underWay o ts c₁) :
      BreaksOff follow underWay o (t :: ts) c

theorem stops_guards (h : Stops (guards g follow underWay ts) c o) :
    BreaksOff (guard g follow) underWay o ts c := by
  induction ts generalizing c with
  | nil => exact absurd h not_stops_pure
  | cons t ts ih =>
    rw [guards] at h
    obtain h | ⟨r, c₁, hr, h⟩ := h.of_bind
    · exact .here h
    · exact .later hr (ih (stops_map.1 h))

theorem stops_fieldGuards {fs : List TyField} (h : Stops (fieldGuards g follow underWay fs) c o) :
    BreaksOff (guard g follow) underWay o (fs.map TyField.type) c := by
  induction fs generalizing c with
  | nil => exact absurd h not_stops_pure
  | cons f fs ih =>
    obtain ⟨name, t, optional⟩ := f
    rw [fieldGuards] at h
    obtain h | ⟨r, c₁, hr, h⟩ := h.of_bind
    · exact .here h
    · exact .later hr (ih (stops_map.1 h))

theorem stops_composed (ht : t.Composed ts build) (h : Stops (guard g follow underWay t) c o) :
    BreaksOff (guard g follow) underWay o ts c := by
  cases ht with
  | union hlits =>
    simp only [guard, hlits] at h
    exact stops_guards (stops_map.1 h)
  | intersection | tuple =>
    rw [guard] at h
    exact stops_guards (stops_map.1 h)
  | array =>
    rw [guard] at h
    exact .here (stops_map.1 h)
  | object =>
    rw [guard] at h
    exact stops_fieldGuards (stops_map.1 h)

/-- What was compiled before the stop grew the state. -/
theorem BreaksOff.split {n : Nat} (h : BreaksOff (guardWithin g n) underWay o ts c) :
    ∃ m ∈ ts, ∃ c₁, c.Grows underWay c₁ ∧ Stops (guardWithin g n underWay m) c₁ o := by
  induction h with
  | here h => exact ⟨_, mem_cons_self, _, .refl _ _, h⟩
  | later h _ ih =>
    obtain ⟨m, hm, c₁, hgrows, hstops⟩ := ih
    obtain ⟨names, hrun⟩ := guardWithin_compiles _ h
    exact ⟨m, mem_cons_of_mem _ hm, c₁, hrun.grows.1.trans hgrows, hstops⟩

end Compile

/-! ## Names that are lost -/

/-- The type leads to a declaration without a name. -/
def Graph.Nameless (g : Graph) (t : Ty) : Prop :=
  ∃ i d args bases, g.Leads t (.reference i d args bases) ∧ d.name = ""

/-- The name is that of a reference to which the type leads, whose body leads to a declaration
without a name. -/
def Registry.Abandons (ids : Registry) (g : Graph) (t : Ty) (key : String) : Prop :=
  ∃ i d args bases b u, g.Leads t (.reference i d args bases) ∧ d.kind ≠ .classDecl ∧
    g.target? i = some b ∧ g.Nameless b ∧ ids.given? d = some u ∧
    key = Compile.applicationKey u args

theorem Graph.Leads.of_part (hpart : u.Part t) {v : Ty} (h : g.Leads u v) : g.Leads t v := by
  cases h with
  | part h => exact .part (h.trans hpart)
  | body hp hk hb h => exact .body (hp.trans hpart) hk hb h

/-- Named guards are added, and refer to names that are defined, or lost. -/
structure Compiler.Adds (lost : String → Prop) (c c' : Compiler) : Prop where
  ids : c.ids.Extends c'.ids
  entries : c.arena.entries <+: c'.arena.entries
  closed : ∀ e ∈ c'.arena.entries, e ∈ c.arena.entries ∨
    ∀ key ∈ e.2.refs, key ∈ c'.arena.keys ∨ lost key

namespace Compiler

variable {lost lost' : String → Prop}

theorem Adds.keys (h : c.Adds lost c') (hkey : key ∈ c.arena.keys) : key ∈ c'.arena.keys := by
  obtain ⟨e, he, rfl⟩ := mem_map.1 hkey
  exact mem_map_of_mem (h.entries.subset he)

theorem Adds.refl (lost : String → Prop) (c : Compiler) : c.Adds lost c :=
  ⟨.refl _, prefix_refl _, fun _ he => .inl he⟩

theorem Adds.mono (h : c.Adds lost c') (himp : ∀ key, lost key → lost' key) : c.Adds lost' c' where
  ids := h.ids
  entries := h.entries
  closed := fun e he => (h.closed e he).imp_right fun hrefs key hkey =>
    (hrefs key hkey).imp_right (himp key)

theorem Adds.trans (h : c.Adds lost c₁) (h' : c₁.Adds lost c') : c.Adds lost c' where
  ids := h.ids.trans h'.ids
  entries := h.entries.trans h'.entries
  closed := by
    intro e he
    obtain he | hrefs := h'.closed e he
    · exact (h.closed e he).imp_right fun hrefs key hkey => (hrefs key hkey).imp_left h'.keys
    · exact .inr hrefs

/-- What succeeds loses nothing but what is under way. -/
theorem Grows.adds (h : c.Grows underWay c') : c.Adds (· ∈ underWay) c' :=
  ⟨h.ids, h.entries, h.closed⟩

/-- A failure in the type, while the guards under some names are under way. -/
structure Breaks (g : Graph) (underWay : List String) (t : Ty) (c c' : Compiler) : Prop where
  adds : c.Adds (fun key => key ∈ underWay ∨ c'.ids.Abandons g t key) c'
  nameless : g.Nameless t

/-- A failure in a part, after other parts. -/
theorem Breaks.of_part (hpart : u.Part t) (hgrows : c.Grows underWay c₁)
    (h : c₁.Breaks g underWay u c') : c.Breaks g underWay t c' where
  adds := by
    refine (hgrows.adds.mono fun key => .inl).trans (h.adds.mono fun key => .imp_right ?_)
    rintro ⟨i, d, args, bases, b, u, hleads, hrest⟩
    exact ⟨i, d, args, bases, b, u, hleads.of_part hpart, hrest⟩
  nameless := by
    obtain ⟨i, d, args, bases, hleads, hname⟩ := h.nameless
    exact ⟨i, d, args, bases, hleads.of_part hpart, hname⟩

/-- A failure in a body abandons the name that was under way for it. -/
theorem Breaks.of_body {i : NodeId} {d : Declaration} {args : List Ty} {bases : List Declaration}
    {b : Ty} {ids : Registry} {u : String} (hu : c.ids.uid d = .ok (u, ids))
    (hk : d.kind ≠ .classDecl) (hb : g.target? i = some b)
    (h : Breaks g (Compile.applicationKey u args :: underWay) b { c with ids } c') :
    c.Breaks g underWay (.reference i d args bases) c' where
  adds := by
    have hgrows : c.Grows underWay { c with ids } := .of_uid hu c.warnings
    refine (hgrows.adds.mono fun key => .inl).trans (h.adds.mono ?_)
    rintro key (hkey | ⟨i', d', args', bases', b', u', hleads, hrest⟩)
    · obtain rfl | hkey := mem_cons.1 hkey
      · right
        exact ⟨i, d, args, bases, b, u, .part (.refl _), hk, hb, h.nameless,
          h.adds.ids.given (Registry.uid_given hu), rfl⟩
      · exact .inl hkey
    · exact .inr ⟨i', d', args', bases', b', u', .body (.refl _) hk hb hleads, hrest⟩
  nameless := by
    obtain ⟨i', d', args', bases', hleads, hname⟩ := h.nameless
    exact ⟨i', d', args', bases', .body (.refl _) hk hb hleads, hname⟩

end Compiler

namespace Compile

/-- By induction on the number of references that may be followed. -/
theorem guardWithin_breaks (n : Nat) : ∀ {underWay : List String} {t : Ty} {c c' : Compiler},
    Stops (guardWithin g n underWay t) c (some (e, c')) → c.Breaks g underWay t c' := by
  induction n with
  | zero =>
    intro underWay t c c' h
    cases h
  | succ n ihn =>
    intro underWay t
    simp only [guardWithin]
    induction t using Ty.induct with
    | basic ht =>
      intro c c' h
      exact absurd h (Yields.not_stops ((yields_basic ht fun _ => "").2 ⟨rfl, rfl⟩))
    | composed ht ih =>
      intro c c' h
      obtain ⟨m, hm, c₁, hgrows, hstops⟩ := (stops_composed ht h).split (n := n + 1)
      exact (ih m hm hstops).of_part (ht.part hm (.refl m)) hgrows
    | reference i d args bases =>
      intro c c' h
      rw [guard] at h
      obtain ⟨hname, _, ho⟩ | ⟨u, ids, b, hu, hk, -, hb, hstops⟩ := stops_reference h
      · cases ho
        exact ⟨.refl _ _, i, d, args, bases, .part (.refl _), hname⟩
      · exact .of_body hu hk hb (ihn hstops)
    | unknown ht =>
      intro c c' h
      obtain ⟨w, -, hw⟩ := yields_unknown ht
      exact absurd h (Yields.not_stops (hw.2 ⟨rfl, rfl⟩))

end Compile

theorem stops_memberGuards (h : Stops (memberGuards g t) c o) :
    Compile.BreaksOff (Compile.guardWithin g (g.targets.length + 1)) [] o
      (((fieldsOf g t).getD []).map TyField.type) c := by
  cases hfields : fieldsOf g t with
  | none =>
    obtain ⟨ws, -, hnone⟩ := yields_memberGuards_none hfields
    exact absurd h (Yields.not_stops (hnone.2 ⟨rfl, rfl⟩))
  | some fields =>
    unfold memberGuards at h
    simp only [hfields] at h
    clear hfields
    induction fields generalizing c with
    | nil => exact absurd h not_stops_pure
    | cons f fs ih =>
      rw [compileFields] at h
      obtain h | ⟨r, c₁, hr, h⟩ := h.of_bind
      · exact .here (stops_map.1 h)
      · obtain ⟨r, hr, -⟩ := yields_map.1 hr
        exact .later hr (ih (stops_map.1 h))

/-! ## Sequences of calls -/

namespace GuardRequest

/-- Requests are handled one after another, each with an answer or a failure. -/
inductive Handled (g : Graph) : List GuardRequest → Compiler →
    List (Except Diagnostic GuardAnswer) → Compiler → Prop
  | nil {c : Compiler} : Handled g [] c [] c
  | cons {q : GuardRequest} {qs : List GuardRequest} {c c₁ c' : Compiler}
      {result : Except Diagnostic GuardAnswer} {results : List (Except Diagnostic GuardAnswer)}
      (h : (q.answer g).run.run c = some (result, c₁)) (hrest : Handled g qs c₁ results c') :
      Handled g (q :: qs) c (result :: results) c'

/-- A request stops in one of the types that are compiled for it. -/
theorem stops_answer {q : GuardRequest} (h : Stops (q.answer g) c o) :
    ∃ t ∈ q.compiled g, ∃ c₁, c.Grows [] c₁ ∧ Stops (typeGuard g t) c₁ o := by
  cases q with
  | type t => exact ⟨t, mem_singleton_self t, c, .refl _ _, stops_map.1 h⟩
  | members t => exact (stops_memberGuards (stops_map.1 h)).split

/-- What a failed request loses: names that one of its types abandons. -/
theorem answer_breaks {q : GuardRequest} (h : Fails (q.answer g) c e c') :
    ∃ t ∈ q.compiled g, c.Breaks g [] t c' := by
  obtain ⟨t, ht, c₁, hgrows, hstops⟩ := stops_answer (o := some (e, c')) h
  exact ⟨t, ht, (Compile.guardWithin_breaks _ hstops).of_part (.refl t) hgrows⟩

/-- The name is lost by a request that failed. -/
def Loses (g : Graph) (ids : Registry) (qs : List GuardRequest)
    (results : List (Except Diagnostic GuardAnswer)) (key : String) : Prop :=
  ∃ q e t, (q, Except.error e) ∈ qs.zip results ∧ t ∈ q.compiled g ∧ ids.Abandons g t key

theorem Handled.adds {qs : List GuardRequest} {results : List (Except Diagnostic GuardAnswer)}
    (h : Handled g qs c results c') : c.Adds (Loses g c'.ids qs results) c' := by
  induction h with
  | nil => exact .refl _ _
  | @cons q qs c c₁ c' result results h hrest ih =>
    have hrest : c₁.Adds (Loses g c'.ids (q :: qs) (result :: results)) c' := by
      refine ih.mono ?_
      rintro key ⟨q', e, t, hmem, hlost⟩
      exact ⟨q', e, t, mem_cons_of_mem _ hmem, hlost⟩
    refine .trans ?_ hrest
    cases result with
    | ok a =>
      have hyields : Yields (q.answer g) c a c₁ := h
      exact (answer_grows hyields).adds.mono fun key hkey => by cases hkey
    | error e =>
      obtain ⟨t, ht, hbreaks⟩ := answer_breaks (e := e) h
      refine hbreaks.adds.mono ?_
      rintro key (hkey | ⟨i, d, args, bases, b, u, hleads, hk, hb, hname, hgiven, rfl⟩)
      · cases hkey
      · exact ⟨q, e, t, mem_cons_self, ht, i, d, args, bases, b, u, hleads, hk, hb, hname,
          ih.ids.given hgiven, rfl⟩

theorem Handled.nameless {qs : List GuardRequest}
    {results : List (Except Diagnostic GuardAnswer)} (h : Handled g qs c results c')
    {q : GuardRequest} (hmem : (q, .error e) ∈ qs.zip results) :
    ∃ t ∈ q.compiled g, g.Nameless t := by
  induction h with
  | nil => cases hmem
  | cons h _ ih =>
    rw [zip_cons_cons, mem_cons] at hmem
    obtain heq | hmem := hmem
    · cases heq
      obtain ⟨t, ht, hbreaks⟩ := answer_breaks h
      exact ⟨t, ht, hbreaks.nameless⟩
    · exact ih hmem

end GuardRequest

/-- Whatever calls are made on a compiler that has no named guards at first, and whichever of them
fail: a name that a named guard refers to is defined, or it was abandoned by a call that failed. A
call fails only if a type that it compiles leads to a declaration without a name. Where no type
does, all calls succeed and the named guards are closed. -/
theorem references_defined_or_lost {requests : List GuardRequest}
    {results : List (Except Diagnostic GuardAnswer)} {ids : Registry}
    {warnings : List GuardWarning}
    (h : GuardRequest.Handled g requests ⟨ids, Arena.empty, warnings⟩ results c) :
    (∀ entry ∈ c.arena.entries, ∀ key ∈ entry.2.refs, key ∈ c.arena.keys ∨
      ∃ q e t, (q, Except.error e) ∈ requests.zip results ∧ t ∈ q.compiled g ∧
        c.ids.Abandons g t key) ∧
    (∀ q e, (q, Except.error e) ∈ requests.zip results → ∃ t ∈ q.compiled g, g.Nameless t) ∧
    ((∀ q ∈ requests, ∀ t ∈ q.compiled g, ¬ g.Nameless t) →
      (∀ q e, (q, Except.error e) ∉ requests.zip results) ∧ c.arena.Closed) := by
  have hclosed : ∀ entry ∈ c.arena.entries, ∀ key ∈ entry.2.refs,
      key ∈ c.arena.keys ∨ GuardRequest.Loses g c.ids requests results key := by
    intro entry hentry
    obtain hold | hrefs := h.adds.closed entry hentry
    · cases hold
    · exact hrefs
  refine ⟨hclosed, fun q e hmem => h.nameless hmem, ?_⟩
  intro hnamed
  have hsucceeds : ∀ q e, (q, Except.error e) ∉ requests.zip results := by
    intro q e hmem
    obtain ⟨t, ht, hnameless⟩ := h.nameless hmem
    exact hnamed q (of_mem_zip hmem).1 t ht hnameless
  refine ⟨hsucceeds, fun entry hentry key hkey => ?_⟩
  obtain hdefined | ⟨q, e, -, hmem, -⟩ := hclosed entry hentry key hkey
  · exact hdefined
  · exact absurd hmem (hsucceeds q e)

/-! ## A folder without an owner's name -/

namespace Folders

/-- An interface of the file `a.ts`. -/
def decl (id : Nat) (name : String) : Declaration := ⟨id, name, .interfaceDecl, "a.ts", .nowhere⟩

/-- A folder has a file, and an owner whose declaration has no name. -/
def folder : Ty := .reference 0 (decl 0 "Folder") [] []

/-- A file has a folder. -/
def file : Ty := .reference 1 (decl 1 "File") [] []

/-- The graph of the two. -/
def graph : Graph :=
  ⟨5, [(0, .object 3 [.mk "file" file false, .mk "owner" (.reference 2 (decl 2 "") [] []) false]),
    (1, .object 4 [.mk "folder" folder false])]⟩

/-- What the failure leaves. -/
def after : Compiler :=
  ⟨⟨.path, [(0, "a@Folder"), (1, "a@File")]⟩,
    ⟨[("a@File", .shape [.mk "folder" false (.ref "a@Folder")])]⟩, []⟩

theorem fails_folder : Fails (typeGuard graph folder) (Compiler.empty .path)
    { (Cause.identity "interface").diagnostic .nowhere with file := "a.ts" } after := by
  cbv

theorem yields_file : Yields (typeGuard graph file) after (.ref "a@File") after := by
  rfl

theorem not_closed : ¬ after.arena.Closed := by
  intro hclosed
  have hkey := hclosed _ (.head _) "a@Folder" (.head _)
  exact absurd hkey (by decide)

end Folders

/-- The owner comes to nothing after the file has been compiled. The name of the folder is abandoned
and the guard of the file stays; the next call returns it. -/
theorem references_defined_or_lost_folders : ∃ results,
    GuardRequest.Handled Folders.graph [.type Folders.folder, .type Folders.file]
      (Compiler.empty .path) results Folders.after ∧
    ∃ t, Folders.after.ids.Abandons Folders.graph t "a@Folder" := by
  have hrun : GuardRequest.Handled Folders.graph [.type Folders.folder, .type Folders.file]
      (.empty .path) _ Folders.after :=
    .cons (fails_map.2 Folders.fails_folder) (.cons (yields_map.2 ⟨_, Folders.yields_file, rfl⟩) .nil)
  obtain ⟨hrefs, -, -⟩ := references_defined_or_lost hrun
  obtain hdefined | ⟨-, -, t, -, -, hlost⟩ := hrefs _ (.head _) "a@Folder" (.head _)
  · exact absurd hdefined (by decide)
  · exact ⟨_, hrun, t, hlost⟩

/-- After the failure the guards are not closed, and they stay so when the next call succeeds. -/
theorem dangling_after_failure : ∃ e c r c',
    Fails (typeGuard Folders.graph Folders.folder) (Compiler.empty .path) e c ∧
    ¬ c.arena.Closed ∧
    Yields (typeGuard Folders.graph Folders.file) c r c' ∧ ¬ c'.arena.Closed :=
  ⟨_, _, _, _, Folders.fails_folder, Folders.not_closed, Folders.yields_file, Folders.not_closed⟩

end Componentry
