import Componentry.Proofs.Guard.Failure
import Componentry.Proofs.Types.Merging

/-!
# Each name is compiled once

Compiling follows references into their bodies, and these may lead back to where they came from. A
reference is followed only if its name is neither defined nor under way.

The names under way are those of references that were followed one inside the other. No two of them
are one node, as a node has one name, so there are never more of them than bodies and the bound on
recursion is not reached (`typeGuard_ends`).

A name that is followed is defined as soon as its body is done, if nothing fails. So none of the names
whose bodies a run goes through comes twice (`Compiles.fresh`), whichever requests the run is made of.
-/

namespace Componentry

open List

variable {g : Graph} {t root : Ty} {ts : List Ty} {c c' : Compiler} {underWay : List String}
  {nodes : List NodeId}

/-! ## Compiling comes to an end -/

theorem Graph.Leads.trans {u v : Ty} (h : g.Leads t u) (hu : g.Leads u v) : g.Leads t v := by
  induction h with
  | part h => exact hu.of_part h
  | body hpart hk hb _ ih => exact .body hpart hk hb (ih hu)

theorem Graph.Leads.occurs {u : Ty} (h : g.Leads t u) : g.Occurs t u := by
  induction h with
  | part h => exact .inl h
  | body _ _ hb _ ih => exact .inr (ih.elim (fun h => ⟨_, _, hb, h⟩) id)

/-- References to which the type leads and which are one node are to one declaration, with the same
arguments. -/
def Graph.OneReference (g : Graph) (t : Ty) : Prop :=
  ∀ {i d args bases e args' bases'}, g.Leads t (.reference i d args bases) →
    g.Leads t (.reference i e args' bases') → d.id = e.id ∧ args = args'

/-- The nodes are references to which the type leads and whose names are under way. -/
def Compiler.Followed (c : Compiler) (g : Graph) (root : Ty) (underWay : List String)
    (nodes : List NodeId) : Prop :=
  ∀ i ∈ nodes, ∃ d args bases u, g.Leads root (.reference i d args bases) ∧
    c.ids.given? d = some u ∧ Compile.applicationKey u args ∈ underWay

namespace Compiler.Followed

theorem grows (h : c.Followed g root underWay nodes) (hids : c.ids.Extends c'.ids) :
    c'.Followed g root underWay nodes := by
  intro i hi
  obtain ⟨d, args, bases, u, hleads, hgiven, hkey⟩ := h i hi
  exact ⟨d, args, bases, u, hleads, hids.given hgiven, hkey⟩

variable {i : NodeId} {d : Declaration} {args : List Ty} {bases : List Declaration} {u : String}
  {ids : Registry} (h : c.Followed g root underWay nodes)
  (hleads : g.Leads root (.reference i d args bases)) (hu : c.ids.uid d = .ok (u, ids))

include h hleads hu

/-- A reference whose name is not under way is none of the nodes: they have the same name. -/
theorem notMem (hone : g.OneReference root) (hkey : Compile.applicationKey u args ∉ underWay) :
    i ∉ nodes := by
  intro hi
  obtain ⟨e, args', bases', u', hleads', hgiven, hkey'⟩ := h i hi
  obtain ⟨hid, rfl⟩ := hone hleads hleads'
  have hsame : ids.given? d = some u' := by
    have hlater := (Registry.uid_extends hu).given hgiven
    unfold Registry.given? at hlater ⊢
    rwa [hid]
  rw [Registry.uid_given hu] at hsame
  cases hsame
  exact hkey hkey'

theorem cons : Followed { c with ids } g root (Compile.applicationKey u args :: underWay)
    (i :: nodes) := by
  intro j hj
  obtain rfl | hj := mem_cons.1 hj
  · exact ⟨d, args, bases, u, hleads, Registry.uid_given hu, mem_cons_self⟩
  · obtain ⟨e, args', bases', u', hleads', hgiven, hkey⟩ := h j hj
    exact ⟨e, args', bases', u', hleads', (Registry.uid_extends hu).given hgiven,
      mem_cons_of_mem _ hkey⟩

end Compiler.Followed

namespace Compile

/-- With fewer than `n` bodies left compiling has a result for what the type leads to. By induction on
the number of references that may be followed. -/
theorem guardWithin_ends (hone : g.OneReference root) (n : Nat) :
    ∀ {t underWay nodes}, g.Leads root t → unseen g.keys nodes < n → ∀ {c : Compiler},
      c.Followed g root underWay nodes → ¬ Stops (guardWithin g n underWay t) c none := by
  induction n with
  | zero => exact fun _ hn => absurd hn (Nat.not_lt_zero _)
  | succ n ihn =>
    intro t underWay nodes ht hn
    simp only [guardWithin]
    induction t using Ty.induct with
    | basic hbasic =>
      intro c hc
      exact Yields.not_stops ((yields_basic hbasic fun _ => "").2 ⟨rfl, rfl⟩)
    | composed hparts ih =>
      intro c hc hstops
      obtain ⟨m, hm, c₁, hgrown, hstops⟩ := (stops_composed hparts hstops).split (n := n + 1)
      exact ih m hm (ht.trans (.part (hparts.part hm (.refl m)))) (hc.grows hgrown.ids) hstops
    | reference i d args bases =>
      intro c hc hstops
      rw [guard] at hstops
      obtain ⟨-, _, ho⟩ | ⟨u, ids, b, hu, hk, hkey, hb, hstops⟩ := stops_reference hstops
      · cases ho
      · have hless := unseen_lt (subset_cons_self i nodes) (g.mem_keys hb)
          (hc.notMem ht hu hone hkey) mem_cons_self
        have hbody : g.Leads root b := ht.trans (.body (.refl _) hk hb (.part (.refl _)))
        exact ihn hbody (by omega) (hc.cons ht hu) hstops
    | unknown hunknown =>
      intro c hc
      obtain ⟨w, -, hw⟩ := yields_unknown hunknown
      exact Yields.not_stops (hw.2 ⟨rfl, rfl⟩)

end Compile

theorem typeGuard_ends (hone : g.OneReference t) (c : Compiler) : ¬ Stops (typeGuard g t) c none := by
  refine Compile.guardWithin_ends hone _ (.part (.refl t)) g.unseen_keys ?_
  intro i hi
  cases hi

/-- A request is answered or fails, whatever the state is. -/
theorem GuardRequest.answer_ends {q : GuardRequest} (hone : ∀ t ∈ q.compiled g, g.OneReference t) :
    Settles (q.answer g) := by
  intro c
  cases hrun : (q.answer g).run.run c with
  | some p => exact ⟨p.1, p.2, rfl⟩
  | none =>
    obtain ⟨t, ht, c₁, -, hstops⟩ := stops_answer (o := none) hrun
    exact absurd hstops (typeGuard_ends (hone t ht) c₁)

/-! ## The names that are compiled -/

/-- The names whose bodies are compiled are those that are added. None of them is compiled twice, or
is defined or under way. -/
theorem Compiles.fresh {rs : List Guard} {names : List String}
    (h : Compiles g underWay ts c rs names c') :
    c'.arena.keys = c.arena.keys ++ names ∧ names.Nodup ∧
      ∀ key ∈ names, key ∉ c.arena.keys ∧ key ∉ underWay := by
  induction h with
  | append _ _ ih ih' =>
    obtain ⟨hkeys, hnodup, hnew⟩ := ih
    obtain ⟨hkeys', hnodup', hnew'⟩ := ih'
    rw [hkeys] at hkeys' hnew'
    refine ⟨by rw [hkeys', append_assoc], nodup_append.2 ⟨hnodup, hnodup', ?_⟩, ?_⟩
    · rintro key hkey _ hkey' rfl
      exact (hnew' key hkey').1 (mem_append_right _ hkey)
    · grind
  | composed _ _ ih => exact ih
  | @body underWay names i d args bases c c₁ u ids t r hu hk hkey hway ht h ih =>
    obtain ⟨hkeys, hnodup, hnew⟩ := ih
    refine ⟨?_, nodup_append.2 ⟨hnodup, nodup_singleton _, ?_⟩, ?_⟩
    · rw [Arena.keys_define (h.grows.1.fresh hkey), hkeys, append_assoc]
    · rintro key hkey _ hkey' rfl
      exact (hnew key hkey).2 (by simp_all)
    · grind
  | _ => simp

/-- What is compiled does not depend on the warnings. -/
theorem Compiles.with_warnings {rs : List Guard} {names : List String}
    (h : Compiles g underWay ts c rs names c') : ∀ ws, ∃ ws',
      Compiles g underWay ts { c with warnings := ws } rs names { c' with warnings := ws' } := by
  induction h with
  | nil => exact fun ws => ⟨ws, .nil⟩
  | append _ _ ih ih' =>
    intro ws
    obtain ⟨ws₁, h⟩ := ih ws
    obtain ⟨ws', h'⟩ := ih' ws₁
    exact ⟨ws', h.append h'⟩
  | basic ht hr => exact fun ws => ⟨ws, .basic ht hr⟩
  | composed ht _ ih =>
    intro ws
    obtain ⟨ws', h⟩ := ih ws
    exact ⟨ws', .composed ht h⟩
  | unknown ht hr => exact fun ws => ⟨_, .unknown ht hr⟩
  | ofClass hu hk => exact fun ws => ⟨ws, .ofClass hu hk⟩
  | known hu hk hkey => exact fun ws => ⟨ws, .known hu hk hkey⟩
  | bodyless hu hk ht hw => exact fun ws => ⟨_, .bodyless hu hk ht hw⟩
  | @body _ _ _ _ _ _ c _ _ _ _ _ hu hk hkey hway ht _ ih =>
    intro ws
    obtain ⟨ws', h⟩ := ih ws
    exact ⟨ws', .body (c := { c with warnings := ws }) hu hk hkey hway ht h⟩

namespace GuardRequest

/-- A request for the members of a type without fields may add a warning and nothing else. -/
theorem answer_compiles {q : GuardRequest} {a : GuardAnswer} (h : Yields (q.answer g) c a c') :
    ∃ rs names ws, Compiles g [] (q.compiled g) c rs names { c' with warnings := ws } := by
  cases q with
  | type t =>
    obtain ⟨r, hr, -⟩ := yields_map.1 h
    obtain ⟨names, hrun⟩ := typeGuard_compiles hr
    exact ⟨[r], names, _, hrun⟩
  | members t =>
    obtain ⟨guards, hguards, -⟩ := yields_map.1 h
    cases hfields : fieldsOf g t with
    | none =>
      obtain ⟨ws, -, hnone⟩ := yields_memberGuards_none hfields
      obtain ⟨-, rfl⟩ := hnone.1 hguards
      rw [compiled, hfields]
      exact ⟨[], [], c.warnings, .nil⟩
    | some fields =>
      rw [compiled, hfields]
      obtain ⟨rs, hrun, -⟩ := (yields_memberGuards hfields).1 hguards
      obtain ⟨names, hrun⟩ := hrun.run
      exact ⟨rs, names, _, hrun⟩

theorem answerAll_compiles {requests : List GuardRequest} {answers : List GuardAnswer}
    (h : Yields (answerAll g requests) c answers c') :
    ∃ rs names ws, Compiles g [] (requests.flatMap (compiled g)) c rs names
      { c' with warnings := ws } := by
  induction requests generalizing c answers with
  | nil =>
    obtain ⟨-, rfl⟩ := yields_pure.1 h
    exact ⟨[], [], _, .nil⟩
  | cons q requests ih =>
    obtain ⟨first, c₁, hfirst, h⟩ := yields_bind.1 h
    obtain ⟨rest, hrest, -⟩ := yields_map.1 h
    obtain ⟨rs, names, ws, hrun⟩ := answer_compiles hfirst
    obtain ⟨rs', names', _, hrun'⟩ := ih hrest
    obtain ⟨ws', hrun'⟩ := hrun'.with_warnings ws
    exact ⟨rs ++ rs', names ++ names', ws', hrun.append hrun'⟩

end GuardRequest

/-- Compiling types that contain themselves. In every state of the compiler each request is answered
or fails, and the fields that it is about are found or there are none. If none of the requests
fails, the names whose bodies are compiled on the way are distinct and new: they are the names that
are defined in the end and were not at first. A node must be one reference. -/
theorem bodies_compiled_once {requests : List GuardRequest}
    (hone : ∀ q ∈ requests, ∀ t ∈ q.compiled g, g.OneReference t) :
    (∀ q ∈ requests, Settles (q.answer g) ∧
      fieldsWithin g (g.targets.length + 1) [] q.subject ≠ .error .exhausted) ∧
    ∀ {c c' : Compiler} {answers : List GuardAnswer},
      Yields (GuardRequest.answerAll g requests) c answers c' → ∃ guards names warnings,
        Compiles g [] (requests.flatMap (GuardRequest.compiled g)) c guards names
          { c' with warnings } ∧
        c'.arena.keys = c.arena.keys ++ names ∧ names.Nodup ∧ ∀ key ∈ names, key ∉ c.arena.keys := by
  refine ⟨?_, ?_⟩
  · intro q hq
    exact ⟨GuardRequest.answer_ends (hone q hq), (fields_end g q.subject).1⟩
  · intro c c' answers h
    obtain ⟨guards, names, warnings, hrun⟩ := GuardRequest.answerAll_compiles h
    obtain ⟨hkeys, hnodup, hnew⟩ := hrun.fresh
    exact ⟨guards, names, warnings, hrun, hkeys, hnodup, fun key hkey => (hnew key hkey).1⟩

/-- A type that contains itself, twice: its body is compiled once. -/
theorem bodies_compiled_once_linked : Linked.graph.OneReference Linked.node ∧
    Settles ((GuardRequest.type Linked.node).answer Linked.graph) ∧
    ∃ answers c, Yields (GuardRequest.answerAll Linked.graph [.type Linked.node, .type Linked.node])
        (Compiler.empty .path) answers c ∧
      ∃ guards warnings, Compiles Linked.graph [] [Linked.node, Linked.node] (Compiler.empty .path)
        guards ["list@Node"] { c with warnings } := by
  have hone : Linked.graph.OneReference Linked.node := by
    have heq : ∀ {i d args bases}, Linked.graph.Leads Linked.node (.reference i d args bases) →
        d = Linked.decl ∧ args = [] := by
      intro i d args bases h
      have hmem := h.occurs.mem_pool
      simp_all [Graph.pool, Linked.graph, Linked.body, Linked.node]
    intro i d args bases e args' bases' h h'
    rw [(heq h).1, (heq h).2, (heq h').1, (heq h').2]
    exact ⟨rfl, rfl⟩
  have hrun : Yields
      (GuardRequest.answerAll Linked.graph [.type Linked.node, .type Linked.node])
      (Compiler.empty .path) [.type (.ref "list@Node"), .type (.ref "list@Node")]
      Linked.compiled := by
    cbv
  have hones : ∀ q ∈ [GuardRequest.type Linked.node, .type Linked.node],
      ∀ t ∈ q.compiled Linked.graph, Linked.graph.OneReference t := by
    simp only [mem_cons, not_mem_nil, or_false, or_self]
    rintro q rfl t ht
    rwa [mem_singleton.1 ht]
  obtain ⟨hends, honce⟩ := bodies_compiled_once hones
  obtain ⟨guards, names, warnings, honce, hkeys, -⟩ := honce hrun
  obtain rfl : names = ["list@Node"] := hkeys.symm
  exact ⟨hone, (hends _ (.head _)).1, _, _, hrun, guards, warnings, honce⟩

end Componentry
