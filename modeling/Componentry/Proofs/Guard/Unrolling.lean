import Componentry.Proofs.Guard.Alike

/-!
# Keys without a bound

A key means the guard it stands for. Written as an equation this is `Guard.IsMeaning`: a meaning of
guards reads every key by the meaning of what it stands for, however often that happens. An arena in
which keys stand for each other on one and the same value may have many meanings or none that is
wanted. `Arena.Contractive` excludes this: a cycle of keys goes through a part of the value, so it
ends with the value.

Over a contractive arena there is exactly one meaning. `Guard.check` is sound for it, and agrees
with it as long as no path of the test follows more than `Guard.maxDepth` keys
(`check_eq_meaning`). The keys on a path are those followed at every level of the value together, so
that a value that is nested deep enough is refused though it passes: see `check_links`.
-/

namespace Componentry

open List Guard

variable {key : String} {v : Value} {g : Guard} {n : Nat}

/-! ## Meanings -/

/-- A key read by a meaning of guards: as what it stands for. -/
def Guard.unrolled (resolve : String → Option Guard) (sem : Guard → Value → Bool) (key : String)
    (v : Value) : Bool :=
  match resolve key with
  | some g => sem g v
  | none => false

/-- A meaning of guards in which a key means what it stands for. -/
def Guard.IsMeaning (resolve : String → Option Guard) (sem : Guard → Value → Bool) : Prop :=
  ∀ g v, sem g v = g.accepts (unrolled resolve sem) v

mutual

/-- The keys that a guard tests on the value itself, not on a part of it. -/
def Guard.exposed : Guard → List String
  | .ref key => [key]
  | .all items | .any items => exposedAll items
  | .shape _ | .arrayOf _ | .tuple _ => []
  | .kind _ | .literal _ | .oneOf _ | .instanceOf _ | .always _ => []

def Guard.exposedAll : List Guard → List String
  | [] => []
  | g :: gs => g.exposed ++ exposedAll gs

end

theorem Guard.mem_exposedAll : ∀ {gs : List Guard} {g : Guard}, g ∈ gs →
    key ∈ g.exposed → key ∈ exposedAll gs
  | _ :: _, _, .head _, h => mem_append_left _ h
  | _ :: _, _, .tail _ hg, h => mem_append_right _ (mem_exposedAll hg h)

/-- The guard under the first key tests the second on the same value. -/
def Arena.Exposes (a : Arena) (key key' : String) : Prop :=
  ∃ g, a.lookup key = some g ∧ key' ∈ g.exposed

/-- Every cycle of keys goes through a shape, a list or a tuple. -/
def Arena.Contractive (a : Arena) : Prop := ∀ key, ¬ Relation.TransGen a.Exposes key key

/-- Every key that a named guard refers to is defined. -/
def Arena.Closed (a : Arena) : Prop := ∀ e ∈ a.entries, ∀ key ∈ e.2.refs, key ∈ a.keys

/-! ## The keys that a test meets -/

/-- Testing the first value against the guard comes to a key, with the second value, before any key
is followed. A field that may be left out and is absent is not tested. -/
inductive Guard.Meets : Guard → Value → String → Value → Prop
  | ref {key : String} {v : Value} : Meets (.ref key) v key v
  | all {items : List Guard} {g : Guard} {v w : Value} {key : String} (hg : g ∈ items)
      (h : Meets g v key w) : Meets (.all items) v key w
  | any {items : List Guard} {g : Guard} {v w : Value} {key : String} (hg : g ∈ items)
      (h : Meets g v key w) : Meets (.any items) v key w
  | shape {fields : List GuardField} {name : String} {optional : Bool} {g : Guard}
      {entries : List (String × Value)} {w : Value} {key : String}
      (hf : GuardField.mk name optional g ∈ fields)
      (htested : (optional && ((entries.lookup name).getD .undefined).isUndefined) = false)
      (h : Meets g ((entries.lookup name).getD .undefined) key w) :
      Meets (.shape fields) (.record entries) key w
  | arrayOf {g : Guard} {vs : List Value} {v w : Value} {key : String} (hv : v ∈ vs)
      (h : Meets g v key w) : Meets (.arrayOf g) (.list vs) key w
  | tuple {gs : List Guard} {vs : List Value} {g : Guard} {v w : Value} {key : String}
      (hgv : (g, v) ∈ gs.zip vs) (h : Meets g v key w) : Meets (.tuple gs) (.list vs) key w

/-- A key that is met is met on the value itself, or on a value that is nested less deep. -/
theorem Guard.Meets.level {w : Value} (h : g.Meets v key w) :
    (key ∈ g.exposed ∧ w = v) ∨ w.depth < v.depth := by
  have hdeeper : ∀ {p : Prop} {w u v : Value}, (p ∧ w = u) ∨ w.depth < u.depth →
      u.depth < v.depth → w.depth < v.depth := by
    rintro p w u v (⟨-, rfl⟩ | hlt) hinside
    · exact hinside
    · exact hlt.trans hinside
  induction h with
  | ref => exact Or.inl ⟨mem_singleton_self _, rfl⟩
  | all hg h ih | any hg h ih =>
    exact ih.imp_left fun ⟨hkey, hw⟩ => ⟨mem_exposedAll hg hkey, hw⟩
  | @shape fields name optional g entries w key hf htested h ih =>
    exact .inr (hdeeper ih (Value.inside_record name entries).1)
  | arrayOf hv h ih => exact .inr (hdeeper ih (Value.inside_list hv).1)
  | tuple hgv h ih => exact .inr (hdeeper ih (Value.inside_list (of_mem_zip hgv).2).1)

section Following

variable {follow follow' : String → Value → Bool}

/-- A test has no negation in it: if the keys that it meets are passed by more values, so is the
guard. -/
theorem Guard.accepts_mono (g : Guard) (v : Value)
    (h : ∀ {key w}, g.Meets v key w → follow key w = true → follow' key w = true)
    (hacc : g.accepts follow v = true) : g.accepts follow' v = true := by
  match g with
  | .always _ => rw [accepts]
  | .kind tag | .literal w | .oneOf ws => rwa [accepts] at hacc ⊢
  | .all items =>
    rw [accepts, acceptsAll_iff] at hacc ⊢
    exact fun r hr => accepts_mono r v (fun hmeets => h (.all hr hmeets)) (hacc r hr)
  | .any items =>
    rw [accepts, acceptsAny_iff] at hacc ⊢
    obtain ⟨r, hr, hacc⟩ := hacc
    exact ⟨r, hr, accepts_mono r v (fun hmeets => h (.any hr hmeets)) hacc⟩
  | .shape fields =>
    cases v with
    | record entries =>
      rw [accepts, acceptsFields_iff] at hacc ⊢
      rintro ⟨name, optional, r⟩ hf
      have hfield := hacc _ hf
      by_cases habsent : optional = true ∧ (entries.lookup name).getD .undefined = .undefined
      · exact Or.inl habsent
      · refine Or.inr (accepts_mono r _ (fun hmeets => h (.shape hf ?_ hmeets))
          (hfield.resolve_left habsent))
        rwa [← Value.isUndefined_iff, ← Bool.and_eq_true, Bool.not_eq_true] at habsent
    | _ => simp [accepts] at hacc
  | .arrayOf r =>
    cases v with
    | list vs =>
      simp only [accepts, all_eq_true] at hacc ⊢
      intro w hw
      exact accepts_mono r w (fun hmeets => h (.arrayOf hw hmeets)) (hacc w hw)
    | _ => simp [accepts] at hacc
  | .tuple gs =>
    cases v with
    | list vs =>
      rw [accepts, acceptsEach_iff, forall₂_iff_zip] at hacc ⊢
      refine ⟨hacc.1, fun hgv => ?_⟩
      exact accepts_mono _ _ (fun hmeets => h (.tuple hgv hmeets)) (hacc.2 hgv)
    | _ => simp [accepts] at hacc
  | .instanceOf uid =>
    cases v with
    | inst classes => rwa [accepts] at hacc ⊢
    | _ => simp [accepts] at hacc
  | .ref key =>
    rw [accepts] at hacc ⊢
    exact h .ref hacc
termination_by sizeOf g
decreasing_by
  all_goals simp_wf
  · have := List.sizeOf_lt_of_mem hr
    omega
  · have := List.sizeOf_lt_of_mem hr
    omega
  · have := List.sizeOf_lt_of_mem hf
    simp only [GuardField.mk.sizeOf_spec] at this
    omega
  · have := List.sizeOf_lt_of_mem (List.of_mem_zip hgv).1
    omega

/-- Only how the keys that a test meets are read matters. -/
theorem Guard.accepts_congr (h : ∀ {key w}, g.Meets v key w → follow key w = follow' key w) :
    g.accepts follow v = g.accepts follow' v := by
  rw [Bool.eq_iff_iff]
  constructor
  · exact accepts_mono g v fun hmeets hf => by rwa [← h hmeets]
  · exact accepts_mono g v fun hmeets hf => by rwa [h hmeets]

end Following

/-! ## Paths of keys -/

/-- Testing the value against the guard follows `n` keys inside one another on some path. -/
inductive Guard.Follows (resolve : String → Option Guard) : Guard → Value → Nat → Prop
  | none {g : Guard} {v : Value} : Follows resolve g v 0
  | key {g body : Guard} {v w : Value} {key : String} {n : Nat} (hmeets : g.Meets v key w)
      (hbody : resolve key = some body) (h : Follows resolve body w n) :
      Follows resolve g v (n + 1)

section Bounded

variable {resolve : String → Option Guard} {sem : Guard → Value → Bool}

theorem Guard.followWithin_none (h : resolve key = none) (n : Nat) (v : Value) :
    followWithin resolve n key v = false := by
  cases n with
  | zero => rfl
  | succ n => simp [followWithin, h]

theorem Guard.followWithin_some {body : Guard} (h : resolve key = some body) (n : Nat) (v : Value) :
    followWithin resolve (n + 1) key v = body.checkWithin resolve n v := by
  simp [followWithin, h]

/-- What passes with a bound passes without one. -/
theorem Guard.IsMeaning.of_checkWithin (hsem : Guard.IsMeaning resolve sem) :
    ∀ (n : Nat) {g : Guard} {v : Value}, g.checkWithin resolve n v = true → sem g v = true := by
  intro n
  induction n with
  | zero =>
    intro g v hcheck
    rw [hsem]
    refine accepts_mono g v ?_ hcheck
    intro key w _ hf
    cases hf
  | succ n ih =>
    intro g v hcheck
    rw [hsem]
    refine accepts_mono g v ?_ hcheck
    intro key w _ hf
    unfold unrolled
    cases hbody : resolve key with
    | none => simp [hbody] at hf
    | some body =>
      simp only [hbody] at hf
      exact ih hf

/-- A path from a key that is met is one key longer, so some bound is left for it. -/
theorem Guard.Follows.bound_pos {body : Guard} {w : Value}
    (hn : ∀ m, g.Follows resolve v m → m ≤ n) (hmeets : g.Meets v key w)
    (hbody : resolve key = some body) : ∃ k, n = k + 1 ∧ ∀ m, body.Follows resolve w m → m ≤ k := by
  have hlonger := fun m hm => hn (m + 1) (.key hmeets hbody hm)
  have hpos := hlonger 0 .none
  exact ⟨n - 1, by omega, fun m hm => by have := hlonger m hm; omega⟩

/-- A bound that no path goes beyond is no bound. -/
theorem Guard.IsMeaning.checkWithin_eq (hsem : Guard.IsMeaning resolve sem) (n : Nat) :
    ∀ {g : Guard} {v : Value}, (∀ m, g.Follows resolve v m → m ≤ n) →
      g.checkWithin resolve n v = sem g v := by
  induction n using Nat.strong_induction_on with
  | _ n ih =>
    intro g v hn
    rw [hsem, checkWithin_eq_accepts]
    refine accepts_congr ?_
    intro key w hmeets
    unfold unrolled
    cases hbody : resolve key with
    | none => exact followWithin_none hbody n w
    | some body =>
      obtain ⟨k, rfl, hk⟩ := Guard.Follows.bound_pos hn hmeets hbody
      rw [followWithin_some hbody]
      exact ih k (by omega) hk

/-- Of two bounds that no path goes beyond, either will do. -/
theorem Guard.checkWithin_stable (n : Nat) :
    ∀ {n' : Nat} {g : Guard} {v : Value}, (∀ m, g.Follows resolve v m → m ≤ n) →
      (∀ m, g.Follows resolve v m → m ≤ n') →
      g.checkWithin resolve n v = g.checkWithin resolve n' v := by
  induction n using Nat.strong_induction_on with
  | _ n ih =>
    intro n' g v hn hn'
    rw [checkWithin_eq_accepts, checkWithin_eq_accepts]
    refine accepts_congr ?_
    intro key w hmeets
    cases hbody : resolve key with
    | none => rw [followWithin_none hbody, followWithin_none hbody]
    | some body =>
      obtain ⟨k, rfl, hk⟩ := Guard.Follows.bound_pos hn hmeets hbody
      obtain ⟨k', rfl, hk'⟩ := Guard.Follows.bound_pos hn' hmeets hbody
      rw [followWithin_some hbody, followWithin_some hbody]
      exact ih k (by omega) hk hk'

end Bounded

section Contractive

variable {a : Arena}

/-- Guards that test no key on the value itself are not in a cycle on it. -/
theorem Arena.contractive_of_exposed (h : ∀ e ∈ a.entries, e.2.exposed = []) : a.Contractive := by
  intro key hcycle
  obtain ⟨key', ⟨g, hg, hexposed⟩, -⟩ := Relation.TransGen.head'_iff.1 hcycle
  rw [h _ (Arena.mem_of_lookup hg)] at hexposed
  cases hexposed

theorem Arena.length_keys (a : Arena) : a.keys.length = a.size := length_map _

/-- The bound on a path, by induction along it. The keys `level` have been followed on the value
itself, and each leads to all that the guard exposes; so none of these is among them. When the path
enters a part of the value, a new level begins. -/
theorem Arena.Contractive.follows_le_level (ha : a.Contractive) (h : g.Follows a.lookup v n) :
    ∀ {level : List String}, level.Nodup → level ⊆ a.keys →
      (∀ key ∈ level, ∀ key' ∈ g.exposed, Relation.TransGen a.Exposes key key') →
      n + level.length ≤ a.size * (v.depth + 1) := by
  have hsize : ∀ {level : List String}, level.Nodup → level ⊆ a.keys → level.length ≤ a.size := by
    intro level hnodup hsub
    rw [← a.length_keys]
    exact (hnodup.subperm hsub).length_le
  induction h with
  | @none g v =>
    intro level hnodup hsub _
    have hlevel := hsize hnodup hsub
    have hdepth : a.size * 1 ≤ a.size * (v.depth + 1) := Nat.mul_le_mul_left _ (by omega)
    omega
  | @key g body v w key n hmeets hbody _ ih =>
    intro level hnodup hsub hleads
    have hkey : key ∈ a.keys := Arena.lookup_isSome.1 (by rw [hbody]; rfl)
    have hexposes : ∀ {key'}, key' ∈ body.exposed → a.Exposes key key' :=
      fun hkey' => ⟨body, hbody, hkey'⟩
    rcases hmeets.level with ⟨hexposed, rfl⟩ | hdeeper
    · have hnew : key ∉ level := fun hmem => ha key (hleads key hmem key hexposed)
      have hnodup' : (key :: level).Nodup := nodup_cons.2 ⟨hnew, hnodup⟩
      have hsub' : key :: level ⊆ a.keys := cons_subset.2 ⟨hkey, hsub⟩
      have hlong := ih hnodup' hsub' (by
        intro key₁ hmem key₂ hkey₂
        obtain rfl | hmem := mem_cons.1 hmem
        · exact .single (hexposes hkey₂)
        · exact (hleads key₁ hmem key hexposed).tail (hexposes hkey₂))
      rw [length_cons] at hlong
      omega
    · have hlevel := hsize hnodup hsub
      have hsub' : [key] ⊆ a.keys := cons_subset.2 ⟨hkey, nil_subset _⟩
      have hpart := ih (nodup_singleton key) hsub' (by
        intro key₁ hmem key₂ hkey₂
        obtain rfl := mem_singleton.1 hmem
        exact .single (hexposes hkey₂))
      have hdepth : a.size * (w.depth + 1) ≤ a.size * v.depth := Nat.mul_le_mul_left _ hdeeper
      rw [length_singleton] at hpart
      rw [Nat.mul_add_one]
      omega

/-- A path follows each key at most once on each level of the value. -/
theorem Arena.Contractive.follows_le (ha : a.Contractive) (h : g.Follows a.lookup v n) :
    n ≤ a.size * (v.depth + 1) :=
  ha.follows_le_level h nodup_nil (nil_subset _) nofun

/-- The meaning of guards over a contractive arena: the test with a bound that grows with the
value. -/
def Arena.meaning (a : Arena) (g : Guard) (v : Value) : Bool :=
  g.checkWithin a.lookup (a.size * (v.depth + 1)) v

theorem Arena.Contractive.isMeaning (ha : a.Contractive) : Guard.IsMeaning a.lookup a.meaning := by
  intro g v
  unfold Arena.meaning
  rw [checkWithin_eq_accepts]
  refine accepts_congr ?_
  intro key w hmeets
  unfold unrolled
  cases hbody : a.lookup key with
  | none => exact followWithin_none hbody _ w
  | some body =>
    obtain ⟨k, hn, hk⟩ := Guard.Follows.bound_pos (fun m hm => ha.follows_le hm) hmeets hbody
    rw [hn, followWithin_some hbody]
    exact checkWithin_stable k hk fun m hm => ha.follows_le hm

end Contractive

/-! ## A chain of links -/

/-- Objects whose only field, which may be left out, is such an object again. -/
def linkArena : Arena := ⟨[("Link", .shape [.mk "next" true (.ref "Link")])]⟩

/-- A link with `n` links behind it. -/
def links : Nat → Value
  | 0 => .record []
  | n + 1 => .record [("next", links n)]

theorem linkArena_link : linkArena.lookup "Link" = some (.shape [.mk "next" true (.ref "Link")]) :=
  rfl

theorem contractive_linkArena : linkArena.Contractive :=
  Arena.contractive_of_exposed (by simp [linkArena, exposed])

theorem closed_linkArena : linkArena.Closed := by
  intro e he key hkey
  obtain rfl := mem_singleton.1 he
  exact hkey

theorem depth_links (n : Nat) : (links n).depth = n + 1 := by
  induction n with
  | zero => rfl
  | succ n ih =>
    show max (links n).depth 0 + 1 = n + 1 + 1
    omega

/-- A chain passes with a bound above the number of links behind the first. -/
theorem checkWithin_links (n m : Nat) :
    (ref "Link").checkWithin linkArena.lookup n (links m) = decide (m < n) := by
  induction m generalizing n with
  | zero =>
    cases n with
    | zero => rfl
    | succ n => cases n <;> rfl
  | succ m ih =>
    cases n with
    | zero => rfl
    | succ n =>
      have hpresent : (links m).isUndefined = false := by cases m <;> rfl
      have hstep : (ref "Link").checkWithin linkArena.lookup (n + 1) (links (m + 1)) =
          (ref "Link").checkWithin linkArena.lookup n (links m) := by
        rw [checkWithin_eq_accepts, accepts, followWithin_some linkArena_link,
          checkWithin_eq_accepts, checkWithin_eq_accepts]
        simp [accepts, acceptsFields, links, hpresent]
      rw [hstep, ih]
      simp

/-- Every chain of links passes, and the test refuses the long ones. -/
theorem check_links {sem : Guard → Value → Bool} (hsem : Guard.IsMeaning linkArena.lookup sem)
    (n : Nat) :
    sem (.ref "Link") (links n) = true ∧
      (check linkArena.lookup (.ref "Link") (links n) = true ↔ n < maxDepth) := by
  constructor
  · have hpasses : (ref "Link").checkWithin linkArena.lookup (n + 1) (links n) = true := by
      rw [checkWithin_links]
      simp
    exact hsem.of_checkWithin _ hpasses
  · unfold check
    rw [checkWithin_links]
    simp

/-! ## The test and the meaning -/

/-- Over a contractive arena guards have exactly one meaning in which a key means what it stands
for. What passes the test passes by this meaning; and the test decides it, unless one path of the
test follows more than `Guard.maxDepth` keys. The keys of a path are at most as many as there are
keys, on each level of the value. -/
theorem check_eq_meaning {a : Arena} (ha : a.Contractive) :
    ∃ sem : Guard → Value → Bool, Guard.IsMeaning a.lookup sem ∧
      (∀ other, Guard.IsMeaning a.lookup other → other = sem) ∧
      (∀ g v, check a.lookup g v = true → sem g v = true) ∧
      (∀ g v, (∀ n, g.Follows a.lookup v n → n ≤ maxDepth) →
        check a.lookup g v = sem g v) ∧
      ∀ (g : Guard) (v : Value) (n : Nat), g.Follows a.lookup v n → n ≤ a.size * (v.depth + 1) := by
  refine ⟨a.meaning, ha.isMeaning, ?_, ?_, ?_, ?_⟩
  · intro other hother
    funext g v
    exact (hother.checkWithin_eq _ fun n hn => ha.follows_le hn).symm
  · intro g v hcheck
    exact ha.isMeaning.of_checkWithin _ hcheck
  · intro g v hpaths
    exact ha.isMeaning.checkWithin_eq _ hpaths
  · intro g v n hn
    exact ha.follows_le hn

/-- A chain of 255 links is tested by its meaning, and one of 257 is refused though it passes. -/
theorem check_eq_meaning_links : linkArena.Contractive ∧ linkArena.Closed ∧
      ∃ sem : Guard → Value → Bool, Guard.IsMeaning linkArena.lookup sem ∧
        check linkArena.lookup (.ref "Link") (links 254) = sem (.ref "Link") (links 254) ∧
        sem (.ref "Link") (links 256) = true ∧
        check linkArena.lookup (.ref "Link") (links 256) = false := by
  obtain ⟨sem, hsem, -, -, hdecides, hpaths⟩ := check_eq_meaning contractive_linkArena
  refine ⟨contractive_linkArena, closed_linkArena, sem, hsem, ?_, (check_links hsem 256).1, ?_⟩
  · refine hdecides _ _ fun n hn => ?_
    have hlong := hpaths _ _ n hn
    rw [depth_links] at hlong
    exact hlong
  · rw [Bool.eq_false_iff, Ne, (check_links hsem 256).2]
    decide

end Componentry
