import Componentry.Proofs.Lifecycle.Capture
import Componentry.Proofs.Snippet.Positions

/-!
# The order of initial values

The hook assigns initial values in the order of the fields, so the value of a field may read,
through the object itself, only fields that are declared before it. A class is refused if and only
if some value reads too much, and the diagnostic tells of the first read: the first field in order,
and there the first position (`hooked_initializes`). Type annotations have no positions. The hook
of a class that is accepted assigns every field before another value reads it.
-/

namespace Componentry

open List

variable {fs : List Field} {f : Field} {x : String} {l : Location} {names : List String}

/-- At a position of the expression, a name is read from the object itself. -/
def Expr.ReadsField (e : Expr) (q : List Nat) (l : Location) (name : String) : Prop :=
  ∃ l', (Node.expr e).At q (.expr (.member l (.self l') name))

/-- The initial value of the `i`-th field reads that field or a later one. -/
def ReadsEarly (fs : List Field) (i : Nat) (q : List Nat) (l : Location) (x : String) : Prop :=
  ∃ (f g : Field) (init : Expr) (j : Nat), fs[i]? = some f ∧ f.init = some init ∧
    init.ReadsField q l x ∧ i ≤ j ∧ fs[j]? = some g ∧ g.name = x

/-! ## One value -/

/-- The node reads one of the names from the object itself. -/
def ownRead (names : List String) : Node → Option (Location × String)
  | .expr (.member l (.self _) name) => if names.contains name then some (l, name) else none
  | _ => none

theorem firstOwnRead_eq (names : List String) (e : Expr) :
    firstOwnRead names e = (Node.expr e).nodes.findSome? (ownRead names) := by
  rfl

theorem ownRead_eq_some {m : Node} : ownRead names m = some (l, x) ↔
      x ∈ names ∧ ∃ l', m = .expr (.member l (.self l') x) := by
  unfold ownRead
  constructor
  · intro h
    split at h
    · split at h
      · rename_i hmem
        cases h
        exact ⟨by simpa using hmem, _, rfl⟩
      · cases h
    · cases h
  · rintro ⟨hmem, l', rfl⟩
    simp [hmem]

theorem firstOwnRead_eq_some {e : Expr} (h : firstOwnRead names e = some (l, x)) :
    ∃ q, e.ReadsField q l x ∧ x ∈ names ∧
      ∀ q' l' x', e.ReadsField q' l' x' → x' ∈ names → q = q' ∨ q < q' := by
  rw [firstOwnRead_eq] at h
  obtain ⟨q, m, hm, hread, hfirst⟩ := Node.findSome?_nodes h
  obtain ⟨hmem, l', rfl⟩ := ownRead_eq_some.1 hread
  refine ⟨q, ⟨l', hm⟩, hmem, ?_⟩
  rintro q' l₁ x' ⟨l₂, hread'⟩ hmem'
  refine hfirst q' _ hread' ?_
  rw [ownRead_eq_some.2 ⟨hmem', l₂, rfl⟩]
  simp

theorem firstOwnRead_eq_none {e : Expr} :
    firstOwnRead names e = none ↔ ∀ q l x, e.ReadsField q l x → x ∉ names := by
  rw [firstOwnRead_eq, Node.findSome?_nodes_eq_none]
  constructor
  · rintro h q l x ⟨l', hread⟩ hmem
    have hnone := h q _ hread
    rw [ownRead_eq_some.2 ⟨hmem, l', rfl⟩] at hnone
    cases hnone
  · intro h q m hm
    rw [Option.eq_none_iff_forall_ne_some]
    rintro ⟨l, x⟩ hsome
    obtain ⟨hmem, l', rfl⟩ := ownRead_eq_some.1 hsome
    exact h q l x ⟨l', hm⟩ hmem

/-! ## All fields -/

/-- The names that the value of the first field must not read. -/
theorem mem_names_iff : x ∈ f.name :: fs.map (·.name) ↔
      ∃ (j : Nat) (g : Field), (f :: fs)[j]? = some g ∧ g.name = x := by
  rw [← map_cons (f := fun g : Field => g.name), mem_map]
  constructor
  · rintro ⟨g, hg, rfl⟩
    obtain ⟨j, hj⟩ := mem_iff_getElem?.1 hg
    exact ⟨j, g, hj, rfl⟩
  · rintro ⟨j, g, hj, rfl⟩
    exact ⟨g, mem_iff_getElem?.2 ⟨j, hj⟩, rfl⟩

theorem readsEarly_zero {q : List Nat} : ReadsEarly (f :: fs) 0 q l x ↔
      ∃ init, f.init = some init ∧ init.ReadsField q l x ∧ x ∈ f.name :: fs.map (·.name) := by
  rw [mem_names_iff]
  constructor
  · rintro ⟨f', g, init, j, hf, hinit, hread, -, hg⟩
    cases hf
    exact ⟨init, hinit, hread, j, g, hg⟩
  · rintro ⟨init, hinit, hread, j, g, hg⟩
    exact ⟨f, g, init, j, rfl, hinit, hread, Nat.zero_le j, hg⟩

theorem readsEarly_succ {i : Nat} {q : List Nat} :
    ReadsEarly (f :: fs) (i + 1) q l x ↔ ReadsEarly fs i q l x := by
  constructor
  · rintro ⟨f', g, init, j, hf, hinit, hread, hij, hg, hx⟩
    obtain ⟨j, rfl⟩ : ∃ k, j = k + 1 := ⟨j - 1, by omega⟩
    exact ⟨f', g, init, j, hf, hinit, hread, by omega, hg, hx⟩
  · rintro ⟨f', g, init, j, hf, hinit, hread, hij, hg, hx⟩
    exact ⟨f', g, init, j + 1, hf, hinit, hread, by omega, hg, hx⟩

/-- The value of the first field, as it is examined. -/
theorem firstField_eq_none :
    (f.init.bind fun init => useBefore? f init (f.name :: fs.map (·.name))) = none ↔
      ∀ q l x, ¬ ReadsEarly (f :: fs) 0 q l x := by
  simp only [readsEarly_zero, useBefore?]
  cases f.init with
  | none => simp
  | some init =>
    rw [Option.bind_some, Option.map_eq_none_iff, firstOwnRead_eq_none]
    simp

theorem firstUseBefore_eq_none : firstUseBefore fs = none ↔ ∀ i q l x, ¬ ReadsEarly fs i q l x := by
  induction fs with
  | nil => simp [firstUseBefore, ReadsEarly]
  | cons f fs ih =>
    rw [firstUseBefore]
    constructor
    · intro h i q l x
      split at h
      · cases h
      · rename_i hnone
        cases i with
        | zero => exact firstField_eq_none.1 hnone q l x
        | succ i =>
          rw [readsEarly_succ]
          exact ih.1 h i q l x
    · intro h
      rw [firstField_eq_none.2 (h 0)]
      refine ih.2 fun i q l x => ?_
      rw [← readsEarly_succ (f := f)]
      exact h (i + 1) q l x

/-- What is reported is the first read that comes too early: of the first field that has one, and
there at the first position. -/
theorem firstUseBefore_eq_some {loc : Location} {cause : Cause} : ∀ {fs : List Field},
    firstUseBefore fs = some (loc, cause) →
      ∃ (i : Nat) (q : List Nat) (l : Location) (x : String) (f : Field),
        ReadsEarly fs i q l x ∧ fs[i]? = some f ∧
        loc = (if l.line = 0 then f.loc else l) ∧ cause = .useBefore x f.name ∧
        ∀ i' q' l' x', ReadsEarly fs i' q' l' x' → i < i' ∨ i = i' ∧ (q = q' ∨ q < q')
  | [], h => by simp [firstUseBefore] at h
  | f :: fs, h => by
    rw [firstUseBefore] at h
    split at h
    · rename_i found hfound
      cases h
      obtain ⟨init, hinit, hread⟩ := Option.bind_eq_some_iff.1 hfound
      obtain ⟨⟨l, x⟩, hown, heq⟩ := Option.map_eq_some_iff.1 hread
      cases heq
      obtain ⟨q, hreads, hmem, hfirst⟩ := firstOwnRead_eq_some hown
      refine ⟨0, q, l, x, f, readsEarly_zero.2 ⟨init, hinit, hreads, hmem⟩, rfl, rfl, rfl, ?_⟩
      intro i' q' l' x' hearly
      cases i' with
      | succ i' => exact Or.inl (Nat.succ_pos i')
      | zero =>
        obtain ⟨init', hinit', hreads', hmem'⟩ := readsEarly_zero.1 hearly
        rw [hinit] at hinit'
        cases hinit'
        exact Or.inr ⟨rfl, hfirst q' l' x' hreads' hmem'⟩
    · rename_i hnone
      obtain ⟨i, q, l, x, g, hearly, hg, hloc, hcause, hfirst⟩ := firstUseBefore_eq_some h
      refine ⟨i + 1, q, l, x, g, readsEarly_succ.2 hearly, hg, hloc, hcause, ?_⟩
      intro i' q' l' x' hearly'
      -- the first field reads nothing too early, so all other candidates are later fields
      cases i' with
      | zero => exact absurd hearly' (firstField_eq_none.1 hnone q' l' x')
      | succ i' =>
        obtain hlt | ⟨rfl, hq⟩ := hfirst i' q' l' x' (readsEarly_succ.1 hearly')
        · exact Or.inl (Nat.succ_lt_succ hlt)
        · exact Or.inr ⟨rfl, hq⟩

/-! ## The assignments -/

/-- The statement gives a value to a field of the object itself. -/
def Stmt.Assigns (s : Stmt) (x : String) (value : Expr) : Prop :=
  ∃ l, s = .run l (.assign l (Expr.ownMember x) value)

theorem assigns_assignment {init value : Expr} :
    (f.assignment init).Assigns x value ↔ x = f.name ∧ value = init := by
  constructor
  · rintro ⟨l, h⟩
    cases h
    exact ⟨rfl, rfl⟩
  · rintro ⟨rfl, rfl⟩
    exact ⟨f.loc, rfl⟩

/-- The value of a field does not read another one. -/
def Field.Avoids (f g : Field) : Prop :=
  ∀ init q l, f.init = some init → ¬ init.ReadsField q l g.name

/-- The value of an assignment does not read what another one assigns. -/
def Stmt.Avoids (s s' : Stmt) : Prop :=
  ∀ x value x' value' q l, s.Assigns x value → s'.Assigns x' value' → ¬ value.ReadsField q l x'

theorem avoids_assignment {g : Field} {s s' : Stmt} (h : f.Avoids g)
    (hs : f.init.map f.assignment = some s) (hs' : g.init.map g.assignment = some s') :
    s.Avoids s' := by
  intro x value x' value' q l hx hx'
  obtain ⟨init, hinit, rfl⟩ := Option.map_eq_some_iff.1 hs
  obtain ⟨init', hinit', rfl⟩ := Option.map_eq_some_iff.1 hs'
  obtain ⟨rfl, rfl⟩ := assigns_assignment.1 hx
  obtain ⟨rfl, rfl⟩ := assigns_assignment.1 hx'
  exact h _ q l hinit

theorem avoids_of_le (hearly : ∀ i q l x, ¬ ReadsEarly fs i q l x) {i j : Nat} {g : Field}
    (hij : i ≤ j) (hf : fs[i]? = some f) (hg : fs[j]? = some g) : f.Avoids g :=
  fun init q l hinit hread => hearly i q l g.name ⟨f, g, init, j, hf, hinit, hread, hij, hg, rfl⟩

/-- If no value reads too early, then an assignment stands before every other one that reads what it
assigns. -/
theorem assignments_precede (hearly : ∀ i q l x, ¬ ReadsEarly fs i q l x) {k k' : Nat}
    {s s' : Stmt} (hs : (assignments fs)[k]? = some s) (hs' : (assignments fs)[k']? = some s')
    (hread : ¬ s.Avoids s') : k' < k := by
  by_contra hle
  obtain ⟨hk, rfl⟩ := List.getElem?_eq_some_iff.1 hs
  obtain ⟨hk', rfl⟩ := List.getElem?_eq_some_iff.1 hs'
  obtain hlt | rfl := Nat.lt_or_eq_of_le (Nat.le_of_not_lt hle)
  · -- leaving out the fields without a value keeps the order
    have hlater : fs.Pairwise Field.Avoids := by
      rw [pairwise_iff_getElem]
      intro i j hi hj hij
      exact avoids_of_le hearly (Nat.le_of_lt hij) (getElem?_eq_getElem hi)
        (getElem?_eq_getElem hj)
    have hpairs : (assignments fs).Pairwise Stmt.Avoids :=
      List.Pairwise.filterMap (fun f : Field => f.init.map f.assignment)
        (fun f g hfg s hs s' hs' => avoids_assignment hfg hs hs') hlater
    exact hread (pairwise_iff_getElem.1 hpairs k k' hk hk' hlt)
  · -- a value does not read its own field either
    obtain ⟨f, hf, hassign⟩ := mem_filterMap.1 (getElem_mem hk)
    obtain ⟨i, hi⟩ := mem_iff_getElem?.1 hf
    exact hread (avoids_assignment (avoids_of_le hearly (Nat.le_refl i) hi hi) hassign hassign)

/-! ## Classes -/

theorem hookOf_of_free {o : LifecycleOptions} {c : ClassDecl}
    (h : ∀ m, c.member? o.hook = some m → ∃ k, m = .method k ∧ k.static = false) :
    ∃ hook isNew, hookOf o c = .ok (hook, isNew) := by
  unfold hookOf
  cases hm : c.member? o.hook with
  | none => exact ⟨_, _, rfl⟩
  | some m =>
    obtain ⟨k, rfl, hstatic⟩ := h m hm
    exact ⟨k, false, by simp [hstatic]⟩

/-- Once the hook is there, only an early read stands in the way. -/
theorem hooked_error_iff {c : ClassDecl} {options : LifecycleOptions} {hook : Method} {isNew : Bool}
    (hhook : hookOf options.complete c = .ok (hook, isNew)) {d : Diagnostic} :
    c.hooked options = .error d ↔ ∃ loc cause, firstUseBefore c.perInstance = some (loc, cause) ∧
      d = { cause.diagnostic loc with file := c.decl.file, className := c.name } := by
  unfold ClassDecl.hooked
  simp only [hhook, bind, Except.bind]
  cases firstUseBefore c.perInstance with
  | none => simp [pure, Except.pure]
  | some found =>
    obtain ⟨loc, cause⟩ := found
    simp [throw, throwThe, MonadExceptOf.throw, eq_comm]

/-- Early reads are found, all of them and nothing else. If the name of the hook is free, then a
class is refused if and only if the value of a field reads that field or a later one, and the
diagnostic tells of the first such read. Otherwise the hook starts with the assignments, and
whatever one of them reads from the object has been assigned by an earlier one, if it is assigned
at all. A type annotation has no positions, so `typeof this.dim` in one is not counted as a read. -/
theorem hooked_initializes (c : ClassDecl) (options : LifecycleOptions)
    (hfree : ∀ m, c.member? options.complete.hook = some m →
      ∃ k, m = .method k ∧ k.static = false) :
    ((∃ d, c.hooked options = .error d) ↔ ∃ i q l x, ReadsEarly c.perInstance i q l x) ∧
    (∀ d, c.hooked options = .error d → d.code = "FLM102" ∧
      ∃ (i : Nat) (q : List Nat) (l : Location) (x : String) (f : Field),
        ReadsEarly c.perInstance i q l x ∧ c.perInstance[i]? = some f ∧
        (∀ i' q' l' x', ReadsEarly c.perInstance i' q' l' x' →
          i < i' ∨ i = i' ∧ (q = q' ∨ q < q')) ∧
        d = { (Cause.useBefore x f.name).diagnostic (if l.line = 0 then f.loc else l) with
              file := c.decl.file, className := c.name }) ∧
    ∀ r, c.hooked options = .ok r →
      ∃ full rest, full ∈ instanceMethods options.complete.hook r.decl.members ∧
        (∀ m ∈ instanceMethods options.complete.hook r.decl.members, m = full) ∧
        full.body = assignments c.perInstance ++ rest ∧
        ∀ (k k' : Nat) (s s' : Stmt) (x x' : String) (value value' : Expr) (q : List Nat)
          (l : Location), (assignments c.perInstance)[k]? = some s → s.Assigns x value →
          (assignments c.perInstance)[k']? = some s' → s'.Assigns x' value' →
          value.ReadsField q l x' → k' < k := by
  obtain ⟨hook, isNew, hhook⟩ := hookOf_of_free hfree
  refine ⟨?_, ?_, ?_⟩
  · constructor
    · rintro ⟨d, hd⟩
      obtain ⟨loc, cause, hfound, -⟩ := (hooked_error_iff hhook).1 hd
      obtain ⟨i, q, l, x, f, hearly, -⟩ := firstUseBefore_eq_some hfound
      exact ⟨i, q, l, x, hearly⟩
    · rintro ⟨i, q, l, x, hearly⟩
      cases hfound : firstUseBefore c.perInstance with
      | none => exact absurd hearly (firstUseBefore_eq_none.1 hfound i q l x)
      | some found => exact ⟨_, (hooked_error_iff hhook).2 ⟨found.1, found.2, hfound, rfl⟩⟩
  · intro d hd
    obtain ⟨loc, cause, hfound, rfl⟩ := (hooked_error_iff hhook).1 hd
    obtain ⟨i, q, l, x, f, hearly, hf, rfl, rfl, hfirst⟩ := firstUseBefore_eq_some hfound
    exact ⟨rfl, i, q, l, x, f, hearly, hf, hfirst, rfl⟩
  · intro r hr
    have hnone : firstUseBefore c.perInstance = none := by
      rw [Option.eq_none_iff_forall_ne_some]
      intro found hfound
      have herror := (hooked_error_iff hhook).2 ⟨found.1, found.2, hfound, rfl⟩
      rw [hr] at herror
      cases herror
    obtain ⟨hook, isNew, full, hhook, hfull, hdecl⟩ := hooked_cases hr
    obtain ⟨hmem, hall⟩ := hook_hooked hhook hfull rfl
    have hbody : ∃ rest, full.body = assignments c.perInstance ++ rest := by
      rw [hfull, assignments_perInstance]
      exact ⟨_, append_assoc ..⟩
    obtain ⟨rest, hrest⟩ := hbody
    rw [hdecl]
    refine ⟨full, rest, hmem, hall, hrest, ?_⟩
    intro k k' s s' x x' value value' q l hs hx hs' hx' hread
    refine assignments_precede (firstUseBefore_eq_none.1 hnone) hs hs' fun havoids => ?_
    exact havoids x value x' value' q l hx hx' hread

/-- The value of the field named `beam`, which is a function that reads the field `dim`. -/
def readingValue : Expr :=
  .arrow .nowhere [] (.block [.yield .nowhere (some (.call .nowhere (.name .nowhere "mix")
    [.literal .nowhere (.bool true), .member ⟨7, 3⟩ (.self .nowhere) "dim"]))])

/-- A component with the fields `beam` and `dim` in one of the two orders. -/
def lampClass (dimFirst : Bool) : ClassDecl :=
  let dim : Field :=
    { loc := .nowhere, name := "dim", type := none, optional := false, static := false
      readOnly := false, definite := false, init := some (.literal .nowhere (.bool false)) }
  let beam : Field := { dim with name := "beam", init := some readingValue }
  { gateClass with
    decl := ⟨0, "Lamp", .classDecl, "lamp.ts", .nowhere⟩
    members := if dimFirst then [.field dim, .field beam] else [.field beam, .field dim] }

theorem hooked_initializes_lamp : (∀ dimFirst m, (lampClass dimFirst).member? "onStart" = some m →
      ∃ k, m = .method k ∧ k.static = false) ∧
    (∃ d, (lampClass false).hooked {} = .error d ∧ d.code = "FLM102") ∧
    ∃ r full, (lampClass true).hooked {} = .ok r ∧ full ∈ instanceMethods "onStart" r.decl.members ∧
      full.body.length = 2 ∧
      ∀ k k' : Nat, full.body[k]? = some (.run .nowhere (.assign .nowhere
          (Expr.ownMember "beam") readingValue)) →
        full.body[k']? = some (.run .nowhere (.assign .nowhere
          (Expr.ownMember "dim") (.literal .nowhere (.bool false)))) → k' < k := by
  have hfree : ∀ dimFirst m, (lampClass dimFirst).member? "onStart" = some m →
      ∃ k, m = .method k ∧ k.static = false := by
    intro dimFirst m h
    cases dimFirst <;> cases h
  have hreads : readingValue.ReadsField [0, 0, 2] ⟨7, 3⟩ "dim" :=
    ⟨_, .inside rfl (.inside rfl (.inside rfl (.here _)))⟩
  refine ⟨hfree, ?_, ?_⟩
  · obtain ⟨hrefused, hdiagnostic, -⟩ := hooked_initializes (lampClass false) {} (hfree false)
    obtain ⟨d, hd⟩ := hrefused.2 ⟨0, [0, 0, 2], ⟨7, 3⟩, "dim", _, _, readingValue, 1, rfl, rfl,
      hreads, Nat.zero_le 1, rfl, rfl⟩
    exact ⟨d, hd, (hdiagnostic d hd).1⟩
  · obtain ⟨-, -, haccepted⟩ := hooked_initializes (lampClass true) {} (hfree true)
    obtain ⟨r, hr⟩ : ∃ r, (lampClass true).hooked {} = .ok r := ⟨_, rfl⟩
    obtain ⟨full, rest, hmem, -, hbody, horder⟩ := haccepted r hr
    have hfull : instanceMethods "onStart" r.decl.members =
        [{ emptyHook "onStart" (lampClass true) with
            body := assignments (lampClass true).perInstance }] := by
      cases hr
      rfl
    have hbody : full.body = assignments (lampClass true).perInstance := by
      have hmem' : full ∈ instanceMethods "onStart" r.decl.members := hmem
      rw [hfull, mem_singleton] at hmem'
      rw [hmem']
    refine ⟨r, full, hr, hmem, by rw [hbody]; rfl, fun k k' hk hk' => ?_⟩
    rw [hbody] at hk hk'
    exact horder k k' _ _ _ _ _ _ _ _ hk ⟨_, rfl⟩ hk' ⟨_, rfl⟩ hreads

end Componentry
