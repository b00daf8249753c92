import Componentry.Guard.Check
import Componentry.Proofs.Guard.Compilation

/-!
# Guards mean what types mean

`Ty.Sat g uidOf n t v` says which values belong to a type, without any guard: a value belongs to a
union if it belongs to some member, to an object type if its fields belong to theirs, and to a
reference with a body if it belongs to the body. Types may contain themselves, so the bodies that
are entered inside one another are counted, and beyond `n` of them nothing belongs.

`typeGuard_sat` says that the guard of a type, read over the named guards that compiling it leaves
behind, accepts exactly the values of the type, at every depth.

The proof goes through `Ty.byName`, the guard in which every reference with a body stands by its
name. Compiling returns it whatever has been compiled before (`Compiles.byName`), and each named guard
is `byName` of the body it was made from; that two references with one name have one body is a
hypothesis, because names are made from texts.
-/

namespace Componentry

open List Compile

variable {t u : Ty} {c : Compiler} {uidOf : Declaration → String} {underWay : List String}
  {gs : List Guard} {v : Value}

/-! ## The values of a type -/

/-- The value belongs to the type, with at most `n` bodies of references entered inside one another.
Classes are told apart by the identifiers `uidOf` gives them. -/
def Ty.Sat (g : Graph) (uidOf : Declaration → String) : Nat → Ty → Value → Prop
  | _, .primitive _ name, v =>
    name = "any" ∨ name = "unknown" ∨ (name ≠ "never" ∧ v.tag = name)
  | _, .literal _ w, v => v.equals w = true
  | n, .union _ members, v => ∃ m, ∃ _ : m ∈ members, Ty.Sat g uidOf n m v
  | n, .intersection _ members, v => ∀ m, (_ : m ∈ members) → Ty.Sat g uidOf n m v
  | n, .tuple _ elements, v =>
    ∃ vs, v = .list vs ∧ vs.length = elements.length ∧
      ∀ i (hi : i < elements.length) w, vs[i]? = some w → Ty.Sat g uidOf n elements[i] w
  | n, .array _ element, v => ∃ vs, v = .list vs ∧ ∀ w ∈ vs, Ty.Sat g uidOf n element w
  | n, .object _ fields, v =>
    ∃ entries, v = .record entries ∧ ∀ f, (_ : f ∈ fields) →
      (f.optional = true ∧ (entries.lookup f.name).getD .undefined = .undefined) ∨
        Ty.Sat g uidOf n f.type ((entries.lookup f.name).getD .undefined)
  | n, .reference id d _ _, v =>
    if d.kind = .classDecl then ∃ classes, v = .inst classes ∧ uidOf d ∈ classes
    else
      match g.target? id, n with
      | none, _ => True
      | some _, 0 => False
      | some body, n + 1 => Ty.Sat g uidOf n body v
  | _, .deferred _ _, _ => True
  | _, .unrepresentable _ _, _ => True
termination_by n t => (n, sizeOf t)
decreasing_by
  all_goals simp_wf
  · have := List.sizeOf_lt_of_mem ‹_ ∈ members›
    right; omega
  · have := List.sizeOf_lt_of_mem ‹_ ∈ members›
    right; omega
  · have := List.sizeOf_lt_of_mem (List.getElem_mem hi)
    right; omega
  · right; omega
  · have := List.sizeOf_lt_of_mem ‹_ ∈ fields›
    have := f.sizeOf_type_lt
    right; omega
  · left; omega

theorem Ty.sat_reference (g : Graph) (uidOf : Declaration → String) (n : Nat) (id : NodeId)
    (d : Declaration) (args : List Ty) (bases : List Declaration) (v : Value) :
    (Ty.reference id d args bases).Sat g uidOf n v ↔
      if d.kind = .classDecl then ∃ classes, v = .inst classes ∧ uidOf d ∈ classes
      else
        match g.target? id, n with
        | none, _ => True
        | some _, 0 => False
        | some body, n + 1 => body.Sat g uidOf n v := by
  rw [Ty.Sat.eq_def]

/-! ## Parts of types, and names -/

/-- The first type occurs in the second, outside the arguments of references. -/
inductive Ty.Part : Ty → Ty → Prop
  | refl (t : Ty) : Ty.Part t t
  | union {u m : Ty} {i : NodeId} {members : List Ty} (hm : m ∈ members) (h : Ty.Part u m) :
      Ty.Part u (.union i members)
  | intersection {u m : Ty} {i : NodeId} {members : List Ty} (hm : m ∈ members)
      (h : Ty.Part u m) : Ty.Part u (.intersection i members)
  | tuple {u m : Ty} {i : NodeId} {elements : List Ty} (hm : m ∈ elements) (h : Ty.Part u m) :
      Ty.Part u (.tuple i elements)
  | array {u m : Ty} {i : NodeId} (h : Ty.Part u m) : Ty.Part u (.array i m)
  | object {u : Ty} {f : TyField} {i : NodeId} {fields : List TyField} (hf : f ∈ fields)
      (h : Ty.Part u f.type) : Ty.Part u (.object i fields)

theorem Ty.Composed.part {m : Ty} {ts : List Ty} {build : List Guard → Guard}
    (h : t.Composed ts build) (hm : m ∈ ts) (hu : u.Part m) : u.Part t := by
  cases h with
  | union => exact .union hm hu
  | intersection => exact .intersection hm hu
  | tuple => exact .tuple hm hu
  | array =>
    rw [mem_singleton.1 hm] at hu
    exact .array hu
  | object =>
    obtain ⟨f, hf, rfl⟩ := mem_map.1 hm
    exact .object hf hu

theorem Ty.Composed.part_cases {ts : List Ty} {build : List Guard → Guard}
    (h : t.Composed ts build) (hu : u.Part t) : u = t ∨ ∃ m ∈ ts, u.Part m := by
  cases hu with
  | refl => exact .inl rfl
  | array hu =>
    cases h
    exact .inr ⟨_, mem_singleton_self _, hu⟩
  | object hf hu =>
    cases h
    exact .inr ⟨_, mem_map_of_mem hf, hu⟩
  | _ hm hu =>
    cases h
    exact .inr ⟨_, hm, hu⟩

/-- A union of literals holds nothing but literals. -/
theorem Ty.Basic.part (h : t.Basic) (hu : u.Part t) : u.Basic := by
  cases hu with
  | refl => exact h
  | union hm hu =>
    cases h with
    | literals h =>
      obtain ⟨i, v, -, rfl⟩ := (mem_literals h).1 _ hm
      cases hu
      exact .literal
  | _ => cases h

/-- The type occurs in `t` or in what a reference stands for. -/
def Graph.Occurs (g : Graph) (t u : Ty) : Prop :=
  u.Part t ∨ ∃ id body, g.target? id = some body ∧ u.Part body

/-! ## Listing what occurs -/

namespace Ty

mutual

/-- The nodes of a type, outside the arguments of references. -/
def pieces : Ty → List Ty
  | .union i ts => .union i ts :: piecesAll ts
  | .intersection i ts => .intersection i ts :: piecesAll ts
  | .tuple i ts => .tuple i ts :: piecesAll ts
  | .array i e => .array i e :: e.pieces
  | .object i fields => .object i fields :: piecesFields fields
  | .primitive i name => [.primitive i name]
  | .literal i v => [.literal i v]
  | .reference i d args bases => [.reference i d args bases]
  | .deferred i source => [.deferred i source]
  | .unrepresentable i reason => [.unrepresentable i reason]

def piecesAll : List Ty → List Ty
  | [] => []
  | t :: ts => t.pieces ++ piecesAll ts

def piecesFields : List TyField → List Ty
  | [] => []
  | .mk _ t _ :: fs => t.pieces ++ piecesFields fs

end

attribute [simp] pieces piecesAll piecesFields

theorem piecesAll_eq : ∀ ts : List Ty, piecesAll ts = ts.flatMap pieces
  | [] => rfl
  | t :: ts => by rw [piecesAll, piecesAll_eq ts, flatMap_cons]

theorem piecesFields_eq : ∀ fs : List TyField,
    piecesFields fs = (fs.map TyField.type).flatMap pieces
  | [] => rfl
  | .mk _ t _ :: fs => by
    rw [piecesFields, piecesFields_eq fs, map_cons, flatMap_cons, TyField.type]

theorem Part.mem_pieces (h : u.Part t) : u ∈ t.pieces := by
  induction h with
  | refl => cases u <;> simp [pieces]
  | union hm _ ih | intersection hm _ ih | tuple hm _ ih =>
    rw [pieces, piecesAll_eq]
    exact mem_cons_of_mem _ (mem_flatMap_of_mem hm ih)
  | array _ ih => exact mem_cons_of_mem _ ih
  | object hf _ ih =>
    rw [pieces, piecesFields_eq]
    exact mem_cons_of_mem _ (mem_flatMap_of_mem (mem_map_of_mem hf) ih)

end Ty

/-- All nodes of a type and of the types that references stand for. -/
def Graph.pool (g : Graph) (t : Ty) : List Ty := t.pieces ++ Ty.piecesAll (g.targets.map (·.2))

theorem Graph.Occurs.mem_pool {g : Graph} (h : g.Occurs t u) : u ∈ g.pool t := by
  obtain h | ⟨i, body, hbody, h⟩ := h
  · exact mem_append_left _ h.mem_pieces
  · obtain ⟨e, he, rfl⟩ := Option.map_eq_some_iff.1 hbody
    have hmem : e.2 ∈ g.targets.map (·.2) := mem_map_of_mem (mem_of_find?_eq_some he)
    rw [pool, Ty.piecesAll_eq]
    exact mem_append_right _ (mem_flatMap_of_mem hmem h.mem_pieces)

/-! ## Names -/

/-- A reference to an interface or an alias that occurs in the graph of `t` has the name `key`, and
stands for `target`. -/
def Graph.Names (g : Graph) (uidOf : Declaration → String) (t : Ty) (key : String)
    (target : Option Ty) : Prop :=
  ∃ id d args bases, g.Occurs t (.reference id d args bases) ∧ d.kind ≠ .classDecl ∧
    applicationKey (uidOf d) args = key ∧ g.target? id = target

/-- References with the same name stand for the same type. -/
def Graph.NamesAgree (g : Graph) (uidOf : Declaration → String) (t : Ty) : Prop :=
  ∀ {key : String} {x y : Option Ty}, g.Names uidOf t key x → g.Names uidOf t key y → x = y

/-- The identifiers in a registry are those of the assignment. -/
def Registry.Follows (r : Registry) (uidOf : Declaration → String) : Prop :=
  ∀ {d : Declaration} {u : String}, r.given? d = some u → uidOf d = u

/-- With one reference there is nothing to agree on. -/
theorem Graph.namesAgree_of_eq {g : Graph} {i : NodeId}
    (h : ∀ {id d args bases}, Ty.reference id d args bases ∈ g.pool t → id = i) :
    g.NamesAgree uidOf t := by
  rintro key x y ⟨j, d, args, bases, hj, -, -, rfl⟩ ⟨k, e, args', bases', hk, -, -, rfl⟩
  rw [h hj.mem_pool, h hk.mem_pool]

theorem Registry.follows_single {style : IdStyle} {id : Nat} {name : String}
    (hname : ∀ d : Declaration, d.id = id → uidOf d = name) :
    Registry.Follows ⟨style, [(id, name)]⟩ uidOf := by
  intro d u hu
  have hmem := Registry.mem_of_given hu
  simp only [mem_singleton, Prod.mk.injEq] at hmem
  rw [hname d hmem.1, hmem.2]

theorem Registry.Extends.follows {r r' : Registry} (h : r.Extends r') (hf : r'.Follows uidOf) :
    r.Follows uidOf :=
  fun hu => hf (h.given hu)

/-! ## Parts that cannot be tested -/

/-- Nothing is known of the type: neither its form, nor what its name stands for. -/
def Graph.Untestable (g : Graph) (u : Ty) : Prop :=
  u.isUnknown = true ∨ ∃ i d args bases,
    u = .reference i d args bases ∧ d.kind ≠ .classDecl ∧ g.target? i = none

/-- The second type occurs in the first, or in a body that references lead to from there. -/
inductive Graph.Leads (g : Graph) : Ty → Ty → Prop
  | part {t u : Ty} (h : u.Part t) : Leads g t u
  | body {t b u : Ty} {i : NodeId} {d : Declaration} {args : List Ty} {bases : List Declaration}
      (hpart : (Ty.reference i d args bases).Part t) (hk : d.kind ≠ .classDecl)
      (hb : g.target? i = some b) (h : Leads g b u) : Leads g t u

/-- Testing a value against the type comes to something that cannot be tested. -/
def Graph.Untested (g : Graph) (t : Ty) : Prop := ∃ u, g.Leads t u ∧ g.Untestable u

/-- Everything in the type itself can be tested. -/
def Graph.Clear (g : Graph) (t : Ty) : Prop := ∀ u : Ty, u.Part t → ¬ g.Untestable u

section Noting

variable {g : Graph} {uidOf : Declaration → String} {whole : Ty} {ts : List Ty}
  {build : List Guard → Guard}

theorem Ty.Composed.not_untestable (h : t.Composed ts build) : ¬ g.Untestable t := by
  rintro (hunknown | ⟨i, d, args, bases, rfl, -⟩)
  · cases h <;> cases hunknown
  · cases h

theorem Ty.Composed.untested_iff (h : t.Composed ts build) :
    g.Untested t ↔ ∃ m ∈ ts, g.Untested m := by
  constructor
  · rintro ⟨u, hleads, hu⟩
    cases hleads with
    | part hpart =>
      obtain rfl | ⟨m, hm, hpart⟩ := h.part_cases hpart
      · exact absurd hu h.not_untestable
      · exact ⟨m, hm, u, .part hpart, hu⟩
    | body hpart hk hb hleads =>
      obtain rfl | ⟨m, hm, hpart⟩ := h.part_cases hpart
      · cases h
      · exact ⟨m, hm, u, .body hpart hk hb hleads, hu⟩
  · rintro ⟨m, hm, u, hleads, hu⟩
    cases hleads with
    | part hpart => exact ⟨u, .part (h.part hm hpart), hu⟩
    | body hpart hk hb hleads => exact ⟨u, .body (h.part hm hpart) hk hb hleads, hu⟩

theorem Ty.Composed.clear (h : t.Composed ts build) (hclear : ∀ m ∈ ts, g.Clear m) : g.Clear t := by
  intro u hu
  obtain rfl | ⟨m, hm, hu⟩ := h.part_cases hu
  · exact h.not_untestable
  · exact hclear m hm u hu

theorem Ty.Basic.clear (h : t.Basic) : g.Clear t := by
  rintro u hu (hunknown | ⟨i, d, args, bases, rfl, -⟩)
  · cases h.part hu <;> cases hunknown
  · cases h.part hu

/-- A reference that is not bodyless is clear: its body is looked at by itself. -/
theorem Graph.clear_reference {i : NodeId} {d : Declaration} {args : List Ty}
    {bases : List Declaration} (h : d.kind = .classDecl ∨ (g.target? i).isSome = true) :
    g.Clear (.reference i d args bases) := by
  rintro u ⟨⟩ (hunknown | ⟨_, _, _, _, heq, hk, hnone⟩)
  · cases hunknown
  · cases heq
    obtain h | h := h
    · exact hk h
    · rw [hnone] at h
      cases h

/-! ## What a run notes -/

/-- The bodies of the named guards are clear. -/
def Compiler.Clear (g : Graph) (uidOf : Declaration → String) (whole : Ty) (c : Compiler) : Prop :=
  ∀ key ∈ c.arena.keys, ∀ body, g.Names uidOf whole key (some body) → g.Clear body

/-- What compiling the types in turn does to the warnings. -/
structure Compiler.Notes (g : Graph) (uidOf : Declaration → String) (whole : Ty) (ts : List Ty)
    (c c' : Compiler) : Prop where
  kept : c.warnings <+: c'.warnings
  /-- A new warning has a cause. -/
  cause : c'.warnings ≠ c.warnings → ∃ t ∈ ts, g.Untested t
  /-- Without a new warning everything that has been compiled is clear. -/
  clear : c'.warnings = c.warnings → c.Clear g uidOf whole →
    (∀ t ∈ ts, g.Clear t) ∧ c'.Clear g uidOf whole

variable {c₁ c' : Compiler} {us : List Ty}

theorem Compiler.Notes.of_eq (ha : c'.arena = c.arena) (hw : c'.warnings = c.warnings)
    (hts : ∀ t ∈ ts, g.Clear t) : c.Notes g uidOf whole ts c' where
  kept := by rw [hw]
  cause h := absurd hw h
  clear _ hc := ⟨hts, by unfold Compiler.Clear; rw [ha]; exact hc⟩

/-- A step that warns. -/
theorem Compiler.Notes.of_warning {w : GuardWarning} (hw : c'.warnings = c.warnings ++ [w])
    (ht : g.Untestable t) : c.Notes g uidOf whole [t] c' where
  kept := ⟨_, hw.symm⟩
  cause _ := ⟨t, mem_singleton_self t, t, .part (.refl t), ht⟩
  clear h := by simp [hw] at h

theorem Compiler.Notes.append (h : c.Notes g uidOf whole ts c₁)
    (h' : c₁.Notes g uidOf whole us c') : c.Notes g uidOf whole (ts ++ us) c' where
  kept := h.kept.trans h'.kept
  cause hne := by
    by_cases hw : c₁.warnings = c.warnings
    · obtain ⟨t, ht, hu⟩ := h'.cause (by rwa [hw])
      exact ⟨t, mem_append_right _ ht, hu⟩
    · obtain ⟨t, ht, hu⟩ := h.cause hw
      exact ⟨t, mem_append_left _ ht, hu⟩
  clear heq hc := by
    -- warnings are only added, so none was added in either part
    have hw : c₁.warnings = c.warnings :=
      (h'.kept.trans (by rw [heq])).eq_of_length_le h.kept.length_le
    obtain ⟨hts, hc₁⟩ := h.clear hw hc
    obtain ⟨hus, hc'⟩ := h'.clear (heq.trans hw.symm) hc₁
    exact ⟨forall_mem_append.2 ⟨hts, hus⟩, hc'⟩

theorem Compiler.Notes.composed (ht : t.Composed ts build) (h : c.Notes g uidOf whole ts c') :
    c.Notes g uidOf whole [t] c' where
  kept := h.kept
  cause hne := ⟨t, mem_singleton_self t, ht.untested_iff.2 (h.cause hne)⟩
  clear heq hc := by
    obtain ⟨hts, hc'⟩ := h.clear heq hc
    exact ⟨by simpa using ht.clear hts, hc'⟩

end Noting

/-! ## Compiling returns the guard by name -/

section Compiling

variable {g : Graph} {uidOf : Declaration → String} {whole : Ty}

/-- Each named guard is the one by name of a body with that name, and each name under way has a
body. -/
structure Compiler.Sound (g : Graph) (uidOf : Declaration → String) (whole : Ty)
    (underWay : List String) (c : Compiler) : Prop where
  defined : ∀ e ∈ c.arena.entries,
    ∃ body, g.Names uidOf whole e.1 (some body) ∧ e.2 = body.byName g uidOf
  pending : ∀ key ∈ underWay, ∃ body, g.Names uidOf whole key (some body)

/-- A name that is defined or under way has a body. -/
theorem Compiler.Sound.body (h : c.Sound g uidOf whole underWay) {key : String}
    (hkey : key ∈ c.arena.keys ∨ key ∈ underWay) : ∃ body, g.Names uidOf whole key (some body) := by
  obtain hkey | hkey := hkey
  · obtain ⟨e, he, rfl⟩ := mem_map.1 hkey
    obtain ⟨body, hbody, -⟩ := h.defined e he
    exact ⟨body, hbody⟩
  · exact h.pending key hkey

theorem Compiler.Sound.of_arena_eq {c' : Compiler} (h : c.Sound g uidOf whole underWay)
    (ha : c'.arena = c.arena) : c'.Sound g uidOf whole underWay :=
  ⟨by rw [ha]; exact h.defined, h.pending⟩

/-- The body of a name is entered. -/
theorem Compiler.Sound.enter (h : c.Sound g uidOf whole underWay) {key : String} {body : Ty}
    (hname : g.Names uidOf whole key (some body)) {ids : Registry} :
    Compiler.Sound g uidOf whole (key :: underWay) { c with ids } :=
  ⟨h.defined, forall_mem_cons.2 ⟨⟨body, hname⟩, h.pending⟩⟩

/-- A run for types that occur in the graph returns guards by name, and notes what cannot be tested.
The identifiers that count are those at the end, which a part of the run has given only in part. -/
theorem Compiles.byName (hagree : g.NamesAgree uidOf whole) {ts : List Ty} {rs : List Guard}
    {names : List String} {c' : Compiler} (h : Compiles g underWay ts c rs names c') :
    (∀ t ∈ ts, ∀ u : Ty, u.Part t → g.Occurs whole u) → c'.ids.Follows uidOf →
      c.Sound g uidOf whole underWay →
        (rs = ts.map (Ty.byName g uidOf) ∧ c.Notes g uidOf whole ts c') ∧
          c'.Sound g uidOf whole underWay := by
  induction h with
  | nil => exact fun _ _ hc => ⟨⟨rfl, .of_eq rfl rfl (by simp)⟩, hc⟩
  | append _ hrest ih ih' =>
    intro hocc hids hc
    rw [forall_mem_append] at hocc
    obtain ⟨⟨hnamed, hnotes⟩, hc₁⟩ := ih hocc.1 (hrest.grows.1.ids.follows hids) hc
    obtain ⟨⟨hnamed', hnotes'⟩, hc'⟩ := ih' hocc.2 hids hc₁
    exact ⟨⟨by rw [hnamed, hnamed', map_append], hnotes.append hnotes'⟩, hc'⟩
  | basic ht hr =>
    intro hocc hids hc
    exact ⟨⟨by simp [hr], .of_eq rfl rfl (by simpa using ht.clear)⟩, hc⟩
  | composed ht _ ih =>
    intro hocc hids hc
    have hparts := hocc _ (mem_singleton_self _)
    obtain ⟨⟨hnamed, hnotes⟩, hc'⟩ := ih (fun m hm u hu => hparts u (ht.part hm hu)) hids hc
    exact ⟨⟨by simp [ht.byName, hnamed], hnotes.composed ht⟩, hc'⟩
  | unknown ht hr =>
    intro hocc hids hc
    exact ⟨⟨by simp [hr], .of_warning rfl (.inl ht)⟩, hc.of_arena_eq rfl⟩
  | ofClass hu hk =>
    intro hocc hids hc
    have huid := hids (Registry.uid_given hu)
    refine ⟨⟨?_, .of_eq rfl rfl ?_⟩, hc.of_arena_eq rfl⟩
    · simp [Ty.byName, hk, huid]
    · simpa using Graph.clear_reference (.inl hk)
  | @known underWay i d args bases c u ids hu hk hkey =>
    intro hocc hids hc
    have huid : uidOf d = u := hids (Registry.uid_given hu)
    obtain ⟨body, hbody⟩ := hc.body hkey
    -- the other reference with this name has a body, so this one has it too
    have hoccurs := hocc _ (mem_singleton_self _) _ (.refl _)
    have htarget : g.target? i = some body :=
      hagree ⟨i, d, args, bases, hoccurs, hk, by rw [huid], rfl⟩ hbody
    refine ⟨⟨?_, .of_eq rfl rfl ?_⟩, hc.of_arena_eq rfl⟩
    · simp [Ty.byName, hk, huid, htarget]
    · simpa using Graph.clear_reference (.inr (by rw [htarget]; rfl))
  | @bodyless underWay i d args bases c u ids w hu hk ht hw =>
    intro hocc hids hc
    refine ⟨⟨?_, .of_warning rfl (.inr ⟨i, d, args, bases, rfl, hk, ht⟩)⟩, hc.of_arena_eq rfl⟩
    simp [Ty.byName, hk, ht, hw]
  | @body underWay names i d args bases c c₁ u ids t r hu hk hkey hway ht h ih =>
    intro hocc hids hc
    have hgrows := h.grows.1
    have huid : uidOf d = u := hids (hgrows.ids.given (Registry.uid_given hu))
    have hoccurs := hocc _ (mem_singleton_self _) _ (.refl _)
    have hname : g.Names uidOf whole (applicationKey u args) (some t) :=
      ⟨i, d, args, bases, hoccurs, hk, by rw [huid], ht⟩
    have hparts : ∀ m ∈ [t], ∀ v : Ty, v.Part m → g.Occurs whole v := by
      intro m hm v hv
      rw [mem_singleton.1 hm] at hv
      exact .inr ⟨i, t, ht, hv⟩
    obtain ⟨⟨hbody, hnotes⟩, hc₁⟩ := ih hparts hids (hc.enter hname)
    refine ⟨⟨?_, hnotes.kept, fun hne => ?_, fun heq hclear₀ => ?_⟩, ?_, hc.pending⟩
    · simp [Ty.byName, hk, huid, ht]
    · obtain ⟨t', ht', v, hleads, hv⟩ := hnotes.cause hne
      rw [mem_singleton.1 ht'] at hleads
      exact ⟨_, mem_singleton_self _, v, .body (.refl _) hk ht hleads, hv⟩
    · obtain ⟨hclearBody, hclear₁⟩ := hnotes.clear heq hclear₀
      refine ⟨by simpa using Graph.clear_reference (.inr (by rw [ht]; rfl)), ?_⟩
      intro key hmem body hbody'
      rw [Arena.keys_define (hgrows.fresh hkey), mem_append, mem_singleton] at hmem
      obtain hmem | rfl := hmem
      · exact hclear₁ key hmem body hbody'
      · cases hagree hname hbody'
        exact hclearBody t (mem_singleton_self t)
    · intro e he
      rw [Arena.entries_define (hgrows.fresh hkey), mem_append, mem_singleton] at he
      obtain he | rfl := he
      · exact hc₁.defined e he
      · exact ⟨t, hname, singleton_inj.1 hbody⟩

end Compiling

/-! ## Reading a guard by name -/

/-- How a name is tested with at most `n` names followed inside one another. -/
def Guard.followWithin (resolve : String → Option Guard) : Nat → String → Value → Bool
  | 0, _, _ => false
  | n + 1, key, v =>
    match resolve key with
    | some g => Guard.checkWithin resolve n g v
    | none => false

theorem Guard.checkWithin_eq_accepts (resolve : String → Option Guard) (n : Nat) (r : Guard)
    (v : Value) :
    Guard.checkWithin resolve n r v = r.accepts (Guard.followWithin resolve n) v := by
  cases n with
  | zero => rfl
  | succ n => rfl

theorem Value.isUndefined_iff : v.isUndefined = true ↔ v = .undefined := by
  cases v <;> simp [Value.isUndefined]

section Reading

variable {g : Graph} {uidOf : Declaration → String} {whole : Ty}

/-- A union of literals is satisfied by the values of its literals. -/
theorem sat_of_literals (g : Graph) (uidOf : Declaration → String) (n : Nat) (v : Value)
    {members : List Ty} {vs : List Literal} (h : literals? members = some vs) :
    vs.any v.equals = true ↔ ∃ m ∈ members, m.Sat g uidOf n v := by
  obtain ⟨hmembers, hvalues⟩ := mem_literals h
  rw [any_eq_true]
  constructor
  · rintro ⟨w, hw, heq⟩
    obtain ⟨i, hi⟩ := hvalues w hw
    exact ⟨_, hi, by rwa [Ty.Sat]⟩
  · rintro ⟨m, hm, hsat⟩
    obtain ⟨i, w, hw, rfl⟩ := hmembers m hm
    exact ⟨w, hw, by rwa [Ty.Sat] at hsat⟩

/-- What it takes to read a name at depth `n`: the guard under it accepts the values of the body. -/
def ReadsNames (g : Graph) (uidOf : Declaration → String) (whole : Ty) (a : Arena)
    (follow : String → Value → Bool) (n : Nat) : Prop :=
  ∀ {key : String} {body : Ty} (v : Value), g.Names uidOf whole key (some body) →
    key ∈ a.keys → (follow key v = true ↔
      match n with
      | 0 => False
      | m + 1 => body.Sat g uidOf m v)

variable {a : Arena} {follow : String → Value → Bool} {n : Nat}

theorem Guard.acceptsAll_iff :
    Guard.acceptsAll follow gs v = true ↔ ∀ r ∈ gs, r.accepts follow v = true := by
  induction gs with
  | nil => simp [Guard.acceptsAll]
  | cons r gs ih => simp [Guard.acceptsAll, ih]

theorem Guard.acceptsAny_iff :
    Guard.acceptsAny follow gs v = true ↔ ∃ r ∈ gs, r.accepts follow v = true := by
  induction gs with
  | nil => simp [Guard.acceptsAny]
  | cons r gs ih => simp [Guard.acceptsAny, ih]

theorem Guard.acceptsEach_iff {vs : List Value} : Guard.acceptsEach follow gs vs = true ↔
      Forall₂ (fun r v => r.accepts follow v = true) gs vs := by
  induction gs generalizing vs with
  | nil => cases vs <;> simp [Guard.acceptsEach]
  | cons r gs ih => cases vs <;> simp [Guard.acceptsEach, ih]

/-- The value of the field passes its guard, or is absent and may be. -/
def GuardField.Passes (follow : String → Value → Bool) (entries : List (String × Value)) :
    GuardField → Prop
  | .mk name optional r =>
    (optional = true ∧ (entries.lookup name).getD .undefined = .undefined) ∨
      r.accepts follow ((entries.lookup name).getD .undefined) = true

theorem Guard.acceptsFields_iff {entries : List (String × Value)} {fs : List GuardField} :
    Guard.acceptsFields follow entries fs = true ↔ ∀ f ∈ fs, f.Passes follow entries := by
  induction fs with
  | nil => simp [Guard.acceptsFields]
  | cons f fs ih =>
    cases f
    simp [Guard.acceptsFields, ih, GuardField.Passes, Value.isUndefined_iff]

theorem accepts_byName (hread : ReadsNames g uidOf whole a follow n) (t : Ty) : ∀ v : Value,
    (∀ u : Ty, u.Part t → g.Occurs whole u) → (∀ key ∈ (t.byName g uidOf).refs, key ∈ a.keys) →
      ((t.byName g uidOf).accepts follow v = true ↔ t.Sat g uidOf n v) := by
  induction t using Ty.induct with
  | basic ht =>
    intro v hocc hkeys
    cases ht with
    | @primitive i name =>
      rw [Ty.Sat, Ty.byName]
      by_cases hany : name = "any" ∨ name = "unknown"
      · have hb : (name = "any" || name = "unknown") = true := by simpa using hany
        rw [if_pos hb]
        simp only [Guard.accepts, true_iff]
        tauto
      · have hb : ¬ (name = "any" || name = "unknown") = true := by simpa using hany
        rw [if_neg hb]
        by_cases hnever : name = "never"
        · rw [if_pos hnever]
          simp only [Guard.accepts, Guard.acceptsAny]
          tauto
        · rw [if_neg hnever]
          simp only [Guard.accepts, beq_iff_eq]
          tauto
    | literal => rw [Ty.Sat, Ty.byName, Guard.accepts]
    | literals hvs =>
      rw [Ty.Sat]
      simp only [Ty.byName, hvs, Guard.accepts, sat_of_literals g uidOf n v hvs, exists_prop]
  | @composed t ts build ht ih =>
    intro v hocc hkeys
    have hpart : ∀ m ∈ ts, ∀ w : Value,
        ((m.byName g uidOf).accepts follow w = true ↔ m.Sat g uidOf n w) := by
      intro m hm w
      refine ih m hm w (fun u hu => hocc u (ht.part hm hu)) fun key hkey => hkeys key ?_
      rw [ht.byName, ht.mem_refs (length_map _)]
      exact ⟨_, mem_map_of_mem hm, hkey⟩
    rw [ht.byName]
    clear ih hocc hkeys
    cases ht with
    | union =>
      simp only [Ty.Sat, Guard.accepts, Guard.acceptsAny_iff, mem_map,
        exists_exists_and_eq_and, exists_prop]
      exact exists_congr fun m => and_congr_right fun hm => hpart m hm v
    | intersection =>
      simp only [Ty.Sat, Guard.accepts, Guard.acceptsAll_iff, forall_mem_map]
      exact forall₂_congr fun m hm => hpart m hm v
    | tuple =>
      rw [Ty.Sat]
      cases v with
      | list vs =>
        simp only [Guard.accepts, Guard.acceptsEach_iff, forall₂_iff_get, length_map,
          get_eq_getElem, getElem_map, Value.list.injEq, exists_eq_left']
        refine and_congr eq_comm (forall₂_congr fun i hi => ?_)
        have hi' := hpart _ (getElem_mem hi)
        constructor
        · intro h w hw
          obtain ⟨hlt, rfl⟩ := List.getElem?_eq_some_iff.1 hw
          exact (hi' _).1 (h hlt)
        · intro h hlt
          exact (hi' _).2 (h _ (getElem?_eq_getElem hlt))
      | _ => simp [Guard.accepts]
    | array =>
      rw [Ty.Sat]
      cases v with
      | list vs => simp [Guard.accepts, hpart]
      | _ => simp [Guard.accepts]
    | object =>
      rw [Ty.Sat]
      cases v with
      | record entries =>
        simp only [Guard.accepts, Guard.acceptsFields_iff, map_map,
          zipWith_map_right, zipWith_self, forall_mem_map, GuardField.Passes,
          Value.record.injEq, exists_eq_left']
        exact forall₂_congr fun f hf => or_congr_right (hpart _ (mem_map_of_mem hf) _)
      | _ => simp [Guard.accepts]
  | reference i d args bases =>
    intro v hocc hkeys
    rw [Ty.sat_reference]
    rw [Ty.byName] at hkeys ⊢
    by_cases hk : d.kind = .classDecl
    · rw [if_pos hk, if_pos hk]
      cases v with
      | inst classes | _ => simp [Guard.accepts]
    · rw [if_neg hk] at hkeys ⊢
      rw [if_neg hk]
      cases ht : g.target? i with
      | none => simp [Guard.accepts]
      | some body =>
        simp only [ht, Option.isSome_some, if_true] at hkeys ⊢
        have hname : g.Names uidOf whole (applicationKey (uidOf d) args) (some body) :=
          ⟨i, d, args, bases, hocc _ (.refl _), hk, rfl, ht⟩
        have hkey := hkeys (applicationKey (uidOf d) args) (by simp [Guard.refs])
        rw [Guard.accepts, hread v hname hkey]
        cases n with
        | zero => rfl
        | succ m => rfl
  | @unknown t ht =>
    intro v hocc hkeys
    cases t with
    | deferred | unrepresentable => simp [Ty.Sat, Ty.byName, Guard.accepts]
    | _ => cases ht

end Reading

/-! ## Compiled guards -/

section Compiled

variable {g : Graph} {uidOf : Declaration → String} {whole : Ty}

/-- Over an arena whose guards are those by name of bodies, and which defines every name it uses, a
guard by name accepts the values of its type. By induction on the names that may be followed. -/
theorem checkWithin_byName (hagree : g.NamesAgree uidOf whole) (hc : c.Sound g uidOf whole [])
    (hclosed : ∀ e ∈ c.arena.entries, c.Knows [] e.2.refs) :
    ∀ (n : Nat) (t : Ty) (v : Value), (∀ u : Ty, u.Part t → g.Occurs whole u) →
      c.Knows [] (t.byName g uidOf).refs →
        (Guard.checkWithin c.arena.lookup n (t.byName g uidOf) v = true ↔ t.Sat g uidOf n v) := by
  have hdefined : ∀ names, c.Knows [] names → ∀ key ∈ names, key ∈ c.arena.keys := by
    intro names hn key hkey
    obtain h | h := hn key hkey
    · exact h
    · simp at h
  intro n
  induction n with
  | zero =>
    intro t v hocc hknows
    have hread : ReadsNames g uidOf whole c.arena
        (Guard.followWithin c.arena.lookup 0) 0 := by
      intro key body w hname hkey
      simp [Guard.followWithin]
    rw [Guard.checkWithin_eq_accepts]
    exact accepts_byName hread t v hocc (hdefined _ hknows)
  | succ n ih =>
    intro t v hocc hknows
    have hread : ReadsNames g uidOf whole c.arena
        (Guard.followWithin c.arena.lookup (n + 1)) (n + 1) := by
      intro key body w hname hkey
      obtain ⟨b, hb⟩ := Option.isSome_iff_exists.1 (Arena.lookup_isSome.2 hkey)
      obtain ⟨body', hname', hb'⟩ := hc.defined _ (Arena.mem_of_lookup hb)
      -- the guard under the name was made from a body with that name, so from this body
      obtain rfl : body' = body := Option.some.inj (hagree hname' hname)
      have hparts : ∀ u : Ty, u.Part body' → g.Occurs whole u := by
        obtain ⟨id, d, args, bases, -, -, -, ht⟩ := hname
        exact fun u hu => .inr ⟨id, body', ht, hu⟩
      have hrefs : c.Knows [] (body'.byName g uidOf).refs := by
        have := hclosed _ (Arena.mem_of_lookup hb)
        rwa [hb'] at this
      simp only [Guard.followWithin, hb]
      change b = body'.byName g uidOf at hb'
      rw [hb']
      exact ih body' w hparts hrefs
    rw [Guard.checkWithin_eq_accepts]
    exact accepts_byName hread t v hocc (hdefined _ hknows)

/-- A compiler that is fresh, except that declarations may have identifiers already, returns the
guard by name. The named guards that it leaves behind are guards by name, and refer to no other
names. -/
theorem typeGuard_byName {ids : Registry} {warnings : List GuardWarning} {r : Guard}
    (h : Yields (typeGuard g t) ⟨ids, Arena.empty, warnings⟩ r c) (hids : c.ids.Follows uidOf)
    (hagree : g.NamesAgree uidOf t) :
    r = t.byName g uidOf ∧ c.Sound g uidOf t [] ∧ c.Knows [] r.refs ∧
      ∀ e ∈ c.arena.entries, c.Knows [] e.2.refs := by
  have hstart : Compiler.Sound g uidOf t [] ⟨ids, Arena.empty, warnings⟩ := by
    refine ⟨?_, ?_⟩
    · intro e he
      simp [Arena.empty] at he
    · intro key hkey
      simp at hkey
  obtain ⟨names, hrun⟩ := typeGuard_compiles h
  have hocc : ∀ m ∈ [t], ∀ u : Ty, u.Part m → g.Occurs t u := by
    intro m hm u hu
    rw [mem_singleton.1 hm] at hu
    exact .inl hu
  obtain ⟨⟨hr, -⟩, hsound⟩ := hrun.byName hagree hocc hids hstart
  obtain ⟨hgrows, hknows⟩ := typeGuard_grows h
  refine ⟨singleton_inj.1 hr, hsound, hknows, fun e he => ?_⟩
  obtain he | he := hgrows.closed e he
  · simp [Arena.empty] at he
  · exact he

/-- The guard of a type accepts exactly the values of the type, at every depth: `n` counts the names
that may still be followed, so at depth `d` of a test it is `Guard.maxDepth - d`. The compiler is
fresh, except that declarations may have identifiers already; `uidOf` is any assignment of
identifiers that the registry follows. -/
theorem typeGuard_sat {t : Ty} {ids : Registry} {warnings : List GuardWarning} {r : Guard}
    {c : Compiler} (h : Yields (typeGuard g t) ⟨ids, Arena.empty, warnings⟩ r c)
    (hids : c.ids.Follows uidOf) (hagree : g.NamesAgree uidOf t) (n : Nat) (v : Value) :
    Guard.checkWithin c.arena.lookup n r v = true ↔ t.Sat g uidOf n v := by
  obtain ⟨rfl, hsound, hknows, hclosed⟩ := typeGuard_byName h hids hagree
  exact checkWithin_byName hagree hsound hclosed n t v (fun u hu => .inl hu) hknows

end Compiled

/-! ## A type that contains itself -/

namespace Linked

/-- An interface `Node` with a value and perhaps a next node. -/
def decl : Declaration :=
  { id := 0, name := "Node", kind := .interfaceDecl, file := "list.ts", loc := ⟨1, 1⟩ }

/-- The reference to the interface. -/
def node : Ty := .reference 0 decl [] []

/-- Its body: a number under `value`, and a node or `null` under `next`, which may be absent. -/
def body : Ty :=
  .object 1 [.mk "value" (.primitive 2 "number") false,
    .mk "next" (.union 3 [node, .primitive 4 "null"]) true]

/-- The graph of the interface. -/
def graph : Graph := ⟨5, [(0, body)]⟩

/-- The compiler that has compiled the interface. -/
def compiled : Compiler :=
  ⟨⟨.path, [(0, "list@Node")]⟩, ⟨[("list@Node", .shape [.mk "value" false (.kind "number"),
    .mk "next" true (.any [.ref "list@Node", .kind "null"])])]⟩, []⟩

theorem follows : compiled.ids.Follows fun _ => "list@Node" :=
  Registry.follows_single fun _ _ => rfl

end Linked

theorem typeGuard_sat_linked :
    ∃ r c, Yields (typeGuard Linked.graph Linked.node) (Compiler.empty .path) r c ∧
      c.ids.Follows (fun _ => "list@Node") ∧
      Linked.graph.NamesAgree (fun _ => "list@Node") Linked.node ∧
      ∀ n v, Guard.checkWithin c.arena.lookup n r v = true ↔
        Linked.node.Sat Linked.graph (fun _ => "list@Node") n v := by
  have hrun : Yields (typeGuard Linked.graph Linked.node) (Compiler.empty .path)
      (.ref "list@Node") Linked.compiled := by
    cbv
  have hagree : Linked.graph.NamesAgree (fun _ => "list@Node") Linked.node :=
    Graph.namesAgree_of_eq (i := 0) (by
      simp +contextual [Graph.pool, Linked.graph, Linked.body, Linked.node])
  exact ⟨_, _, hrun, Linked.follows, hagree, fun n v => typeGuard_sat hrun Linked.follows hagree n v⟩

end Componentry
