import Componentry.Snippet.Visit
import Mathlib.Data.List.Forall2

/-!
# Positions in a tree

The place of a node in a tree is told by the way down to it: at each node, which of its parts is
entered. Parts are expressions and statements; types, parameters and the keys of object literals
have no positions, since nothing in them is evaluated.

Positions are ordered like words in a dictionary. A node comes before what is inside it, and what is
inside an earlier part comes before what is inside a later one, so this is the order of a walk
through the tree that looks at each node before its parts. `nodes_positions` says that visiting a
tree is that walk: every position is visited, once, and in order.
-/

namespace Componentry

open List

namespace Node

/-- The parts of a node, in order. -/
def parts : Node → List Node
  | .expr (.literal _ _) | .expr (.name _ _) | .expr (.self _) | .expr (.parent _) => []
  | .expr (.member _ object _) => [.expr object]
  | .expr (.index _ object key) => [.expr object, .expr key]
  | .expr (.call _ callee args) => .expr callee :: args.map .expr
  | .expr (.create _ callee args) => .expr callee :: args.map .expr
  | .expr (.array _ elements) => elements.map .expr
  | .expr (.object _ properties) => properties.map fun p => .expr p.value
  | .expr (.arrow _ _ (.value e)) => [.expr e]
  | .expr (.arrow _ _ (.block body)) => body.map .stmt
  | .expr (.binary _ _ left right) => [.expr left, .expr right]
  | .expr (.unary _ _ operand) => [.expr operand]
  | .expr (.assign _ target value) => [.expr target, .expr value]
  | .stmt (.run _ e) => [.expr e]
  | .stmt (.bind _ _ _ _ value) => value.toList.map .expr
  | .stmt (.yield _ value) => value.toList.map .expr
  | .stmt (.block _ body) => body.map .stmt

/-- The node `m` stands at a position in `n`. -/
inductive At : Node → List Nat → Node → Prop
  | here (n : Node) : At n [] n
  | inside {n part m : Node} {i : Nat} {q : List Nat} (hpart : n.parts[i]? = some part)
      (h : At part q m) : At n (i :: q) m

/-- Every node of a node. -/
def nodes : Node → List Node
  | .expr e => e.visit fun _ => false
  | .stmt s => s.visit fun _ => false

/-! ## One node and its parts -/

theorem exprs_visitAll (es : List Expr) :
    Expr.visitAll (fun _ => false) es = (es.map Node.expr).flatMap nodes := by
  induction es with
  | nil => rw [Expr.visitAll, map_nil, flatMap_nil]
  | cons e es ih => rw [Expr.visitAll, ih, map_cons, flatMap_cons, nodes]

theorem properties_visitAll (ps : List Property) : Property.visitAll (fun _ => false) ps =
      (ps.map fun p => Node.expr p.value).flatMap nodes := by
  induction ps with
  | nil => rw [Property.visitAll, map_nil, flatMap_nil]
  | cons p ps ih =>
    cases p with
    | mk l key value =>
      rw [Property.visitAll, ih, map_cons, flatMap_cons, Property.value, nodes]

theorem stmts_visitAll (ss : List Stmt) :
    Stmt.visitAll (fun _ => false) ss = (ss.map Node.stmt).flatMap nodes := by
  induction ss with
  | nil => rw [Stmt.visitAll, map_nil, flatMap_nil]
  | cons s ss ih => rw [Stmt.visitAll, ih, map_cons, flatMap_cons, nodes]

/-- A node is visited before its parts, and these one after the other. -/
theorem nodes_eq (n : Node) : n.nodes = n :: n.parts.flatMap nodes := by
  cases n with
  | expr e =>
    cases e with
    | arrow l params body =>
      cases body <;>
        simp [nodes, parts, Expr.visit, ArrowBody.visit, stmts_visitAll]
    | _ => simp [nodes, parts, Expr.visit, exprs_visitAll, properties_visitAll]
  | stmt s =>
    cases s with
    | bind l kind b t value | yield l value => cases value <;> simp [nodes, parts, Stmt.visit]
    | _ => simp [nodes, parts, Stmt.visit, stmts_visitAll]

theorem length_nodes_lt {n part : Node} (h : part ∈ n.parts) :
    part.nodes.length < n.nodes.length := by
  obtain ⟨before, after, hparts⟩ := append_of_mem h
  rw [nodes_eq n, hparts]
  simp only [length_cons, flatMap_append, flatMap_cons, length_append]
  omega

theorem At.unique {n m m' : Node} {q : List Nat} (h : n.At q m) (h' : n.At q m') : m = m' := by
  induction h with
  | here n =>
    cases h'
    rfl
  | inside hpart h ih =>
    cases h' with
    | inside hpart' h' =>
      rw [hpart] at hpart'
      cases hpart'
      exact ih h'

/-! ## The order of a visit -/

/-- The nodes of a list stand at the positions of another, in order, and there are no further
positions. -/
structure Walk (place : List Nat → Node → Prop) (qs : List (List Nat)) (ms : List Node) : Prop where
  sorted : qs.Pairwise (· < ·)
  places : List.Forall₂ place qs ms
  complete : ∀ q m, place q m → q ∈ qs

theorem Walk.exists_node {place : List Nat → Node → Prop} {qs : List (List Nat)} {ms : List Node}
    (h : Walk place qs ms) {q : List Nat} (hq : q ∈ qs) : ∃ m ∈ ms, place q m := by
  obtain ⟨j, hj, rfl⟩ := mem_iff_getElem.1 hq
  have hj' : j < ms.length := h.places.length_eq ▸ hj
  exact ⟨ms[j], getElem_mem hj', h.places.get hj hj'⟩

theorem Walk.exists_place {place : List Nat → Node → Prop} {qs : List (List Nat)} {ms : List Node}
    (h : Walk place qs ms) {m : Node} (hm : m ∈ ms) : ∃ q ∈ qs, place q m := by
  obtain ⟨j, hj, rfl⟩ := mem_iff_getElem.1 hm
  have hj' : j < qs.length := h.places.length_eq ▸ hj
  exact ⟨qs[j], getElem_mem hj', h.places.get hj' hj⟩

/-- A position inside the nodes `ps`, which are numbered from `k` on. -/
def AtAmong (ps : List Node) (k : Nat) (q : List Nat) (m : Node) : Prop :=
  ∃ i part rest, q = (k + i) :: rest ∧ ps[i]? = some part ∧ part.At rest m

/-- Walks through nodes one after the other are a walk through all of them. -/
theorem walk_among : ∀ (ps : List Node) (k : Nat), (∀ p ∈ ps, ∃ qs, Walk p.At qs p.nodes) →
    ∃ qs, Walk (AtAmong ps k) qs (ps.flatMap nodes)
  | [], k, _ => by
    refine ⟨[], .nil, .nil, ?_⟩
    rintro q m ⟨i, part, rest, -, hpart, -⟩
    simp at hpart
  | p :: ps, k, h => by
    obtain ⟨qs₁, h₁⟩ := h p mem_cons_self
    obtain ⟨qs₂, h₂⟩ := walk_among ps (k + 1) fun p hp => h p (mem_cons_of_mem _ hp)
    -- positions in the first node begin with `k`, all others with a larger number
    refine ⟨qs₁.map (k :: ·) ++ qs₂, ?_, ?_, ?_⟩
    · refine pairwise_append.2 ⟨?_, h₂.sorted, ?_⟩
      · rw [pairwise_map]
        exact h₁.sorted.imp fun hlt => List.Lex.cons hlt
      · intro q hq q' hq'
        obtain ⟨rest, -, rfl⟩ := mem_map.1 hq
        obtain ⟨m, -, i, part, rest', rfl, -⟩ := h₂.exists_node hq'
        exact List.Lex.rel (by omega)
    · rw [flatMap_cons]
      refine rel_append ?_ ?_
      · rw [forall₂_map_left_iff]
        exact h₁.places.imp fun q m hq => ⟨0, p, q, rfl, rfl, hq⟩
      · refine h₂.places.imp ?_
        rintro q m ⟨i, part, rest, rfl, hpart, hm⟩
        exact ⟨i + 1, part, rest, by rw [Nat.add_assoc, Nat.add_comm 1], hpart, hm⟩
    · rintro q m ⟨i, part, rest, rfl, hpart, hm⟩
      cases i with
      | zero =>
        obtain rfl : p = part := by simpa using hpart
        exact mem_append_left _ (mem_map_of_mem (h₁.complete _ _ hm))
      | succ i =>
        refine mem_append_right _ (h₂.complete _ m ⟨i, part, rest, ?_, hpart, hm⟩)
        rw [Nat.add_assoc, Nat.add_comm 1]

/-- Visiting a tree is a walk through it: the nodes that are visited stand at all positions of the
tree, each once and in order. By induction on how many nodes there are. -/
theorem nodes_positions (n : Node) : ∃ qs, Walk n.At qs n.nodes := by
  have hparts : ∀ p ∈ n.parts, ∃ qs, Walk p.At qs p.nodes := fun p hp => nodes_positions p
  obtain ⟨qs, h⟩ := walk_among n.parts 0 hparts
  rw [nodes_eq]
  refine ⟨[] :: qs, ?_, ?_, ?_⟩
  · refine pairwise_cons.2 ⟨fun q hq => ?_, h.sorted⟩
    obtain ⟨m, -, i, part, rest, rfl, -⟩ := h.exists_node hq
    exact List.Lex.nil
  · refine .cons (.here n) (h.places.imp ?_)
    rintro q m ⟨i, part, rest, rfl, hpart, hm⟩
    rw [Nat.zero_add]
    exact .inside hpart hm
  · intro q m hm
    cases hm with
    | here => exact mem_cons_self
    | @inside _ part _ i rest hpart hm =>
      have hplace : AtAmong n.parts 0 (i :: rest) m := ⟨i, part, rest, by simp, hpart, hm⟩
      exact mem_cons_of_mem _ (h.complete _ _ hplace)
termination_by n.nodes.length
decreasing_by exact length_nodes_lt hp

/-! ## Searching a tree -/

variable {β : Type} {F : Node → Option β}

/-- What is found first in a list of nodes at positions stands before everything else that could be
found. -/
theorem first_of_findSome? {n : Node} {b : β} : ∀ {qs : List (List Nat)} {ms : List Node},
    qs.Pairwise (· < ·) → Forall₂ n.At qs ms → ms.findSome? F = some b →
      ∃ q m, n.At q m ∧ F m = some b ∧ ∀ q' ∈ qs, ∀ m', n.At q' m' → F m' ≠ none → q = q' ∨ q < q'
  | [], [], _, _, h => by simp at h
  | q :: qs, m :: ms, hsorted, .cons hm hms, h => by
    obtain ⟨hbefore, hsorted⟩ := pairwise_cons.1 hsorted
    cases hF : F m with
    | some b' =>
      rw [findSome?_cons_of_isSome (by simp [hF])] at h
      refine ⟨q, m, hm, h, fun q' hq' m' hm' _ => ?_⟩
      obtain rfl | hq' := mem_cons.1 hq'
      · exact Or.inl rfl
      · exact Or.inr (hbefore q' hq')
    | none =>
      rw [findSome?_cons_of_isNone (by simp [hF])] at h
      obtain ⟨q₁, m₁, hm₁, hfound, hfirst⟩ := first_of_findSome? hsorted hms h
      refine ⟨q₁, m₁, hm₁, hfound, fun q' hq' m' hm' hF' => ?_⟩
      obtain rfl | hq' := mem_cons.1 hq'
      · rw [hm'.unique hm] at hF'
        exact absurd hF hF'
      · exact hfirst q' hq' m' hm' hF'

/-- Searching the nodes of a tree finds what stands first. -/
theorem findSome?_nodes {n : Node} {b : β} (h : n.nodes.findSome? F = some b) :
    ∃ q m, n.At q m ∧ F m = some b ∧ ∀ q' m', n.At q' m' → F m' ≠ none → q = q' ∨ q < q' := by
  obtain ⟨qs, hwalk⟩ := n.nodes_positions
  obtain ⟨q, m, hm, hfound, hfirst⟩ := first_of_findSome? hwalk.sorted hwalk.places h
  exact ⟨q, m, hm, hfound, fun q' m' hm' => hfirst q' (hwalk.complete _ _ hm') m' hm'⟩

/-- Searching the nodes of a tree finds nothing if there is nothing at any position. -/
theorem findSome?_nodes_eq_none {n : Node} :
    n.nodes.findSome? F = none ↔ ∀ q m, n.At q m → F m = none := by
  obtain ⟨qs, hwalk⟩ := n.nodes_positions
  rw [findSome?_eq_none_iff]
  constructor
  · intro h q m hm
    obtain ⟨m', hm', hplace⟩ := hwalk.exists_node (hwalk.complete _ _ hm)
    rw [hm.unique hplace]
    exact h m' hm'
  · intro h m hm
    obtain ⟨q, -, hplace⟩ := hwalk.exists_place hm
    exact h q m hplace

end Node

end Componentry
