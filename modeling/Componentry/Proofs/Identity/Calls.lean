import Componentry.Proofs.Identity

/-!
# Requests for identifiers, one after another

A registry answers requests for the identifiers of declarations, some of which may be refused. The
answer depends on the requests before it, because an identifier that is taken gets a number.
`Registry.after` is the registry that a list of requests leaves behind.

The hashed style takes its hash as a parameter here (`Registry.uidWith`), since nothing depends on
it: two declarations may have the same path identifier, or the same hash, or a name that looks as if
it had a number behind it.
-/

namespace Componentry

open List

variable {i : Nat} {c : Option Declaration} {u : String} {d : Declaration} {r' : Registry}

/-- The written form of a path identifier, with `hash` for the hashed style. -/
def IdStyle.renderWith (hash : String → String) : IdStyle → String → String
  | .path, id => id
  | .hashed, id => hash id

theorem IdStyle.render_eq (style : IdStyle) :
    style.render = style.renderWith Digest.Uuid.ofName := by
  cases style <;> rfl

namespace Registry

/-- The identifiers that are tried for a declaration, in order. -/
def candidate (base : String) : Nat → String
  | 0 => base
  | n + 1 => base ++ "#" ++ toString (n + 2)

/-- A request for the identifier of something that may be no declaration. -/
def uidWith (hash : String → String) (r : Registry) :
    Option Declaration → Except Diagnostic (String × Registry)
  | none => .error ((Cause.identity "<nil>").diagnostic Location.nowhere)
  | some d =>
    match r.given? d with
    | some u => .ok (u, r)
    | none =>
      if d.name = "" then
        .error { (Cause.identity d.kind.word).diagnostic d.loc with file := d.file }
      else
        let u := r.freeId (r.style.renderWith hash d.pathId)
        .ok (u, { r with assigned := r.assigned ++ [(d.id, u)] })

theorem uid?_eq_uidWith (r : Registry) (c : Option Declaration) :
    r.uid? c = r.uidWith Digest.Uuid.ofName c := by
  cases c with
  | none => rfl
  | some d =>
    cases h : r.assigned.lookup d.id with
    | some u => simp [uid?, uid, uidWith, given?, h]
    | none => simp [uid?, uid, uidWith, given?, h, IdStyle.render_eq]

/-- The registry after a request: a refused request leaves it as it is. -/
def next (hash : String → String) (r : Registry) (c : Option Declaration) : Registry :=
  match r.uidWith hash c with
  | .ok (_, r') => r'
  | .error _ => r

/-- The registry after requests. -/
def after (hash : String → String) (r : Registry) (cs : List (Option Declaration)) : Registry :=
  cs.foldl (next hash) r

/-! ## One request -/

/-- How a request ends. -/
inductive Request (hash : String → String) (r : Registry) :
    Option Declaration → Except Diagnostic (String × Registry) → Prop
  | nothing (e : Diagnostic) : Request hash r none (.error e)
  | nameless {d : Declaration} (hnew : r.given? d = none) (hname : d.name = "") (e : Diagnostic) :
      Request hash r (some d) (.error e)
  | known {d : Declaration} {u : String} (hu : r.given? d = some u) :
      Request hash r (some d) (.ok (u, r))
  | fresh {d : Declaration} (hnew : r.given? d = none) (hname : d.name ≠ "") {u : String}
      (hu : u = r.freeId (r.style.renderWith hash d.pathId)) :
      Request hash r (some d) (.ok (u, { r with assigned := r.assigned ++ [(d.id, u)] }))

variable {hash : String → String} {r : Registry}

theorem request_uidWith (hash : String → String) (r : Registry) (c : Option Declaration) :
    Request hash r c (r.uidWith hash c) := by
  cases c with
  | none => exact .nothing _
  | some d =>
    cases hd : r.given? d with
    | some u =>
      simp only [uidWith, hd]
      exact .known hd
    | none =>
      by_cases hname : d.name = ""
      · simp only [uidWith, hd, hname, if_true]
        exact .nameless hd hname _
      · simp only [uidWith, hd, hname, if_false]
        exact .fresh hd hname rfl

theorem next_of_ok (h : r.uidWith hash c = .ok (u, r')) : r.next hash c = r' := by
  unfold next
  rw [h]

theorem next_of_error {e : Diagnostic} (h : r.uidWith hash c = .error e) : r.next hash c = r := by
  unfold next
  rw [h]

/-- A registry after a request is what it was, or has one declaration more, which has a name. -/
theorem next_cases (hash : String → String) (r : Registry) (c : Option Declaration) :
    (r.next hash c = r ∧ ∀ d, c = some d → d.name = "" ∨ d.id ∈ r.assigned.map (·.1)) ∨
      ∃ d base, c = some d ∧ d.name ≠ "" ∧ r.given? d = none ∧
        r.next hash c = { r with assigned := r.assigned ++ [(d.id, r.freeId base)] } := by
  have hrequest := request_uidWith hash r c
  unfold next
  revert hrequest
  generalize r.uidWith hash c = answer
  intro hrequest
  cases hrequest with
  | nothing e => exact .inl ⟨rfl, nofun⟩
  | nameless hnew hname e =>
    refine .inl ⟨rfl, ?_⟩
    rintro d ⟨rfl⟩
    exact .inl hname
  | known hu =>
    refine .inl ⟨rfl, ?_⟩
    rintro d ⟨rfl⟩
    exact .inr (mem_map_of_mem (mem_of_given hu))
  | @fresh d hnew hname u hu =>
    subst hu
    exact .inr ⟨d, _, rfl, hname, hnew, rfl⟩

theorem extends_next (hash : String → String) (r : Registry) (c : Option Declaration) :
    Extends r (r.next hash c) := by
  obtain ⟨h, -⟩ | ⟨d, base, -, -, -, h⟩ := next_cases hash r c
  · rw [h]
    exact .refl r
  · rw [h]
    exact prefix_append _ _

theorem style_next (hash : String → String) (r : Registry) (c : Option Declaration) :
    (r.next hash c).style = r.style := by
  obtain ⟨h, -⟩ | ⟨d, base, -, -, -, h⟩ := next_cases hash r c
  · rw [h]
  · rw [h]

theorem Distinct.next (hr : r.Distinct) (c : Option Declaration) : (r.next hash c).Distinct := by
  obtain ⟨h, -⟩ | ⟨d, base, -, -, hnew, h⟩ := next_cases hash r c
  · rwa [h]
  · rw [h]
    exact hr.give hnew base

/-- The declarations that have an identifier after a request. -/
theorem mem_next {id : Nat} : id ∈ (r.next hash c).assigned.map (·.1) ↔
      id ∈ r.assigned.map (·.1) ∨ ∃ d, c = some d ∧ d.name ≠ "" ∧ d.id = id := by
  obtain ⟨h, hold⟩ | ⟨d, base, rfl, hname, -, h⟩ := next_cases hash r c
  · rw [h]
    constructor
    · exact .inl
    · rintro (hid | ⟨d, rfl, hname, rfl⟩)
      · exact hid
      · exact (hold d rfl).resolve_left hname
  · rw [h]
    constructor
    · intro hid
      rw [map_append, mem_append] at hid
      refine hid.imp_right fun hid => ⟨d, rfl, hname, ?_⟩
      exact (mem_singleton.1 hid).symm
    · rw [map_append, mem_append]
      rintro (hid | ⟨e, ⟨rfl⟩, -, rfl⟩)
      · exact .inl hid
      · exact .inr (by simp)

/-- What is answered is what is given from then on. -/
theorem given_of_uidWith (h : r.uidWith hash (some d) = .ok (u, r')) : r'.given? d = some u := by
  have hrequest := request_uidWith hash r (some d)
  rw [h] at hrequest
  cases hrequest with
  | known hu => exact hu
  | fresh hnew hname hu =>
    unfold given? at hnew ⊢
    rw [List.lookup_append, hnew]
    simp

/-! ## The search -/

/-- The search ends at a candidate before which all are taken. -/
theorem firstFree_eq (r : Registry) (base : String) : ∀ fuel n : Nat,
    ∃ k ≤ fuel, r.firstFree base fuel (n + 2) = candidate base (n + k + 1) ∧
      ∀ j < k, r.isTaken (candidate base (n + j + 1)) = true := by
  intro fuel
  induction fuel with
  | zero => exact fun n => ⟨0, Nat.le_refl 0, rfl, fun j hj => absurd hj (Nat.not_lt_zero j)⟩
  | succ fuel ih =>
    intro n
    rw [firstFree]
    by_cases ht : r.isTaken (base ++ "#" ++ toString (n + 2)) = true
    · obtain ⟨k, hk, hfound, htaken⟩ := ih (n + 1)
      refine ⟨k + 1, by omega, ?_, ?_⟩
      · simp only [ht, if_true]
        rw [show n + (k + 1) + 1 = n + 1 + k + 1 by omega]
        exact hfound
      · intro j hj
        cases j with
        | zero => exact ht
        | succ j =>
          have := htaken j (by omega)
          rwa [show n + 1 + j + 1 = n + (j + 1) + 1 by omega] at this
    · refine ⟨0, Nat.zero_le _, ?_, fun j hj => absurd hj (Nat.not_lt_zero j)⟩
      simp only [ht]
      rfl

/-- A new identifier is the first candidate that is free, and there is one among the first: as many
as there are identifiers, and one more. -/
theorem freeId_eq (r : Registry) (base : String) :
    ∃ k ≤ r.size + 1, r.freeId base = candidate base k ∧ r.isTaken (r.freeId base) = false ∧
      ∀ j < k, r.isTaken (candidate base j) = true := by
  have hfree := isTaken_freeId r base
  unfold freeId at hfree ⊢
  by_cases hbase : r.isTaken base = true
  · simp only [hbase, if_true] at hfree ⊢
    obtain ⟨k, hk, hfound, htaken⟩ := firstFree_eq r base r.size 0
    refine ⟨k + 1, by omega, by rw [hfound, Nat.zero_add], hfree, ?_⟩
    intro j hj
    cases j with
    | zero => exact hbase
    | succ j =>
      have := htaken j (by omega)
      rwa [Nat.zero_add] at this
  · simp only [hbase] at hfree ⊢
    exact ⟨0, Nat.zero_le _, rfl, hfree, fun j hj => absurd hj (Nat.not_lt_zero j)⟩

/-! ## A list of requests -/

/-- The identifiers that are given when a request is made are there at the end. -/
theorem extends_after (hash : String → String) (cs : List (Option Declaration)) :
    ∀ r : Registry, Extends r (r.after hash cs) := by
  induction cs with
  | nil => exact .refl
  | cons c cs ih => exact fun r => (extends_next hash r c).trans (ih _)

theorem after_append (hash : String → String) (r : Registry) (cs ds : List (Option Declaration)) :
    r.after hash (cs ++ ds) = (r.after hash cs).after hash ds := foldl_append

theorem style_after (hash : String → String) (cs : List (Option Declaration)) :
    ∀ r : Registry, (r.after hash cs).style = r.style := by
  induction cs with
  | nil => exact fun r => rfl
  | cons c cs ih => exact fun r => (ih _).trans (style_next hash r c)

theorem Distinct.after (hash : String → String) (cs : List (Option Declaration)) :
    ∀ {r : Registry}, r.Distinct → (r.after hash cs).Distinct := by
  induction cs with
  | nil => exact fun hr => hr
  | cons c cs ih => exact fun hr => ih (hr.next c)

/-- The declarations that have an identifier are those with a name that were asked for. -/
theorem mem_after {cs : List (Option Declaration)} {id : Nat} :
    ∀ {r : Registry}, id ∈ (r.after hash cs).assigned.map (·.1) ↔
      id ∈ r.assigned.map (·.1) ∨ ∃ d, some d ∈ cs ∧ d.name ≠ "" ∧ d.id = id := by
  induction cs with
  | nil =>
    intro r
    show id ∈ r.assigned.map (·.1) ↔ _
    simp
  | cons c cs ih =>
    intro r
    show id ∈ ((r.next hash c).after hash cs).assigned.map (·.1) ↔ _
    rw [ih, mem_next, or_assoc]
    refine or_congr_right ?_
    constructor
    · rintro (⟨d, rfl, hd⟩ | ⟨d, hmem, hd⟩)
      · exact ⟨d, mem_cons_self, hd⟩
      · exact ⟨d, mem_cons_of_mem _ hmem, hd⟩
    · rintro ⟨d, hmem, hd⟩
      obtain rfl | hmem := mem_cons.1 hmem
      · exact .inl ⟨d, rfl, hd⟩
      · exact .inr ⟨d, hmem, hd⟩

/-- The registry before the request number `i`. -/
def before (hash : String → String) (style : IdStyle) (calls : List (Option Declaration))
    (i : Nat) : Registry :=
  (empty style).after hash (calls.take i)

section Calls

variable {style : IdStyle} {calls : List (Option Declaration)}

theorem before_succ (hc : calls[i]? = some c) :
    before hash style calls (i + 1) = (before hash style calls i).next hash c := by
  unfold before
  rw [take_add_one, hc, after_append]
  rfl

/-- An identifier that is answered is in the registry at the end. -/
theorem given_at_end (hc : calls[i]? = some (some d))
    (h : (before hash style calls i).uidWith hash (some d) = .ok (u, r')) :
    ((empty style).after hash calls).given? d = some u := by
  have hnext : before hash style calls (i + 1) = r' := by rw [before_succ hc, next_of_ok h]
  have hgiven : (before hash style calls (i + 1)).given? d = some u := by
    rw [hnext]
    exact given_of_uidWith h
  have hend : (empty style).after hash calls =
      (before hash style calls (i + 1)).after hash (calls.drop (i + 1)) := by
    unfold before
    rw [← after_append, take_append_drop]
  rw [hend]
  exact (extends_after hash _ _).given hgiven

/-- A declaration that has an identifier was asked for, if no other has its number. -/
theorem mem_take_of_given (hone : ∀ d e, some d ∈ calls → some e ∈ calls → d.id = e.id → d = e)
    (hc : calls[i]? = some (some d)) (hu : (before hash style calls i).given? d = some u) :
    d.name ≠ "" ∧ some d ∈ calls.take i := by
  have hmem : d.id ∈ (before hash style calls i).assigned.map (·.1) :=
    mem_map_of_mem (mem_of_given hu)
  obtain hmem | ⟨e, he, hname, hid⟩ := mem_after.1 hmem
  · cases hmem
  · obtain rfl := hone e d (mem_of_mem_take he) (mem_of_getElem? hc) hid
    exact ⟨hname, he⟩

/-- Requests are refused exactly if there is nothing with a name to give an identifier to. -/
theorem refused_iff (hone : ∀ d e, some d ∈ calls → some e ∈ calls → d.id = e.id → d = e)
    (hc : calls[i]? = some c) :
    (∃ e, (before hash style calls i).uidWith hash c = .error e) ↔
      ∀ d, c = some d → d.name = "" := by
  have hrequest := request_uidWith hash (before hash style calls i) c
  revert hrequest
  generalize (before hash style calls i).uidWith hash c = answer
  intro hrequest
  cases hrequest with
  | nothing e => exact ⟨fun _ => nofun, fun _ => ⟨e, rfl⟩⟩
  | nameless hnew hname e =>
    refine ⟨fun _ => ?_, fun _ => ⟨e, rfl⟩⟩
    rintro d ⟨rfl⟩
    exact hname
  | known hu =>
    have hname := (mem_take_of_given hone hc hu).1
    exact ⟨nofun, fun hall => absurd (hall _ rfl) hname⟩
  | fresh hnew hname hu => exact ⟨nofun, fun hall => absurd (hall _ rfl) hname⟩

/-- The first time a declaration is asked for, it gets the first candidate that is free. -/
theorem first_answer (hone : ∀ d e, some d ∈ calls → some e ∈ calls → d.id = e.id → d = e)
    (hc : calls[i]? = some (some d)) (hfirst : some d ∉ calls.take i)
    (h : (before hash style calls i).uidWith hash (some d) = .ok (u, r')) :
    u = (before hash style calls i).freeId (style.renderWith hash d.pathId) := by
  have hstyle : (before hash style calls i).style = style := style_after hash _ _
  have hrequest := request_uidWith hash (before hash style calls i) (some d)
  rw [h] at hrequest
  cases hrequest with
  | known hu => exact absurd (mem_take_of_given hone hc hu).2 hfirst
  | fresh hnew hname hu => rw [hu, hstyle]

end Calls

/-- The size of a registry is the number of declarations that were asked for and have a name. -/
theorem size_after (hash : String → String) (style : IdStyle) (calls : List (Option Declaration)) :
    ((empty style).after hash calls).size =
      {id | ∃ d, some d ∈ calls ∧ d.name ≠ "" ∧ d.id = id}.ncard := by
  have hdistinct := (distinct_empty style).after hash calls
  have hset : {id | ∃ d, some d ∈ calls ∧ d.name ≠ "" ∧ d.id = id} =
      ((((empty style).after hash calls).assigned.map (·.1)).toFinset : Set Nat) := by
    ext id
    rw [Finset.mem_coe, mem_toFinset, mem_after]
    exact ⟨.inr, fun h => h.resolve_left nofun⟩
  rw [hset, Set.ncard_coe_finset, toFinset_card_of_nodup hdistinct.decls, length_map]
  rfl

end Registry

open Registry in
/-- The answers to requests for identifiers, whatever the hash. A request is refused exactly if it
is for no declaration or for one without a name, and a refused request changes nothing. A
declaration gets the same identifier each time, and two declarations never share one. The first
time, the answer is the first candidate that is free, and the search comes to it. The size of the
registry is the number of declarations that have an identifier. -/
theorem uid_calls (hash : String → String) (style : IdStyle) (calls : List (Option Declaration))
    (hone : ∀ d e, some d ∈ calls → some e ∈ calls → d.id = e.id → d = e) :
    (∀ (r : Registry) (c : Option Declaration), r.uid? c = r.uidWith Digest.Uuid.ofName c) ∧
      (∀ i c, calls[i]? = some c → ((∃ e, (before hash style calls i).uidWith hash c = .error e) ↔
          ∀ d, c = some d → d.name = "") ∧
        ((∃ e, (before hash style calls i).uidWith hash c = .error e) →
          before hash style calls (i + 1) = before hash style calls i)) ∧
      (∀ i j d e u v r r', calls[i]? = some (some d) → calls[j]? = some (some e) →
        (before hash style calls i).uidWith hash (some d) = .ok (u, r) →
        (before hash style calls j).uidWith hash (some e) = .ok (v, r') → (u = v ↔ d = e)) ∧
      (∀ i d u r, calls[i]? = some (some d) → some d ∉ calls.take i →
        (before hash style calls i).uidWith hash (some d) = .ok (u, r) →
        ∃ k ≤ (before hash style calls i).size + 1,
          u = candidate (style.renderWith hash d.pathId) k ∧
          (before hash style calls i).isTaken u = false ∧
          ∀ m < k, (before hash style calls i).isTaken
            (candidate (style.renderWith hash d.pathId) m) = true) ∧
      ((empty style).after hash calls).size =
        {id | ∃ d, some d ∈ calls ∧ d.name ≠ "" ∧ d.id = id}.ncard := by
  refine ⟨uid?_eq_uidWith, ?_, ?_, ?_, size_after hash style calls⟩
  · intro i c hc
    refine ⟨refused_iff hone hc, ?_⟩
    rintro ⟨e, he⟩
    rw [before_succ hc, next_of_error he]
  · intro i j d e u v r r' hd he hu hv
    have hgiven := given_at_end hd hu
    have hgiven' := given_at_end he hv
    constructor
    · rintro rfl
      have hdistinct := (distinct_empty style).after hash calls
      exact hone d e (mem_of_getElem? hd) (mem_of_getElem? he)
        (hdistinct.eq_of_given hgiven hgiven')
    · rintro rfl
      exact Option.some_injective _ (hgiven.symm.trans hgiven')
  · intro i d u r hc hfirst hu
    obtain ⟨k, hk, hfound, hfree, htaken⟩ :=
      (before hash style calls i).freeId_eq (style.renderWith hash d.pathId)
    rw [first_answer hone hc hfirst hu]
    exact ⟨k, hk, hfound, hfree, htaken⟩

/-- Two declarations whose hashes clash, asked for between requests that are refused. -/
def clashCalls : List (Option Declaration) :=
  let decl (id : Nat) (name : String) : Declaration := ⟨id, name, .interfaceDecl, "a.ts", .nowhere⟩
  [some (decl 0 "A"), none, some (decl 1 "B"), some (decl 2 ""), some (decl 0 "A")]

open Registry in
theorem uid_calls_clash : (∀ d e, some d ∈ clashCalls → some e ∈ clashCalls → d.id = e.id → d = e) ∧
      ∃ d e u v w r r' r'', clashCalls[0]? = some (some d) ∧ clashCalls[2]? = some (some e) ∧
        clashCalls[4]? = some (some d) ∧
        (before (fun _ => "x") .hashed clashCalls 0).uidWith (fun _ => "x") (some d) = .ok (u, r) ∧
        (before (fun _ => "x") .hashed clashCalls 2).uidWith (fun _ => "x") (some e) = .ok (v, r') ∧
        (before (fun _ => "x") .hashed clashCalls 4).uidWith (fun _ => "x") (some d) =
          .ok (w, r'') ∧
        u ≠ v ∧ u = w := by
  have hone : ∀ d e, some d ∈ clashCalls → some e ∈ clashCalls → d.id = e.id → d = e := by
    have hall : ∀ c ∈ clashCalls, ∀ c' ∈ clashCalls, c.map (·.id) = c'.map (·.id) → c = c' := by
      decide
    intro d e hd he hid
    exact Option.some_injective _ (hall _ hd _ he (congrArg some hid))
  obtain ⟨-, -, hsame, -⟩ := uid_calls (fun _ => "x") .hashed clashCalls hone
  refine ⟨hone, _, _, "x", "x#2", "x", _, _, _, rfl, rfl, rfl, rfl, rfl, rfl, ?_, ?_⟩
  · intro huv
    have := (hsame 0 2 _ _ _ _ _ _ rfl rfl rfl rfl).1 huv
    cases this
  · exact (hsame 0 4 _ _ _ _ _ _ rfl rfl rfl rfl).2 rfl

end Componentry
