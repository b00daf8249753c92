import Componentry.Proofs.Snippet.RoundTrip

/-!
# Precedence of operators

Names with operators between them are read as the tree that precedence and association from the left
ask for. `grouping` says which one that is, without a word about reading: the root is the rightmost
of the loosest operators, over the trees of what stands on either side of it.

Reading goes through the levels of operators from the loosest to the tightest. At one level the
operands are the stretches between its own operators, and its loop joins them from the left, so what
the loop has joined so far is always the grouping of what it has read
(`Reads.operandsLoop_grouping`).
-/

namespace Componentry

open Snippet Text List

/-! ## The tree of a sequence -/

/-- How tightly an operator binds. -/
def BinaryOp.level : BinaryOp → Nat
  | .or => 0
  | .and => 1
  | .equal | .unequal | .strictEqual | .strictUnequal => 2
  | .less | .greater | .lessEqual | .greaterEqual => 3
  | .add | .sub => 4
  | .mul | .div | .mod => 5

/-- An operator and the name after it. -/
abbrev Link := BinaryOp × String

/-- The list around the last of its members with the property. -/
def splitLast? {α : Type} (p : α → Bool) : List α → Option (List α × α × List α)
  | [] => none
  | a :: as =>
    match splitLast? p as with
    | some (l, b, r) => some (a :: l, b, r)
    | none => if p a then some ([], a, as) else none

section SplitLast

variable {α : Type} {p : α → Bool} {as l r : List α} {b : α}

theorem splitLast?_eq_none (h : ∀ a ∈ as, p a = false) : splitLast? p as = none := by
  induction as with
  | nil => rfl
  | cons a as ih =>
    rw [forall_mem_cons] at h
    rw [splitLast?, ih h.2, h.1]
    rfl

theorem splitLast?_append (hb : p b = true) (hr : ∀ a ∈ r, p a = false) :
    splitLast? p (l ++ b :: r) = some (l, b, r) := by
  induction l with
  | nil =>
    rw [nil_append, splitLast?, splitLast?_eq_none hr, hb]
    rfl
  | cons a l ih => rw [cons_append, splitLast?, ih]

theorem eq_of_splitLast? (h : splitLast? p as = some (l, b, r)) : as = l ++ b :: r := by
  induction as generalizing l with
  | nil => cases h
  | cons a as ih =>
    rw [splitLast?] at h
    cases htail : splitLast? p as with
    | some t =>
      obtain ⟨l', b', r'⟩ := t
      rw [htail] at h
      cases h
      rw [ih htail, cons_append]
    | none =>
      rw [htail] at h
      by_cases ha : p a = true
      · replace h : some ([], a, as) = some (l, b, r) := by rwa [if_pos ha] at h
        cases h
        rfl
      · replace h : none = some (l, b, r) := by rwa [if_neg ha] at h
        cases h

end SplitLast

/-- No operator of the links is looser than that of `q`. -/
def loosest (links : List Link) (q : Link) : Bool := links.all fun q' => q.1.level ≤ q'.1.level

/-- The tree of a name with links after it: the last of the loosest operators is at the root. -/
def grouping (x : String) (links : List Link) : Expr :=
  match _h : splitLast? (loosest links) links with
  | none => .name .nowhere x
  | some (l, (op, y), r) => .binary .nowhere op (grouping x l) (grouping y r)
termination_by links.length
decreasing_by
  all_goals
    have := congrArg List.length (eq_of_splitLast? _h)
    rw [List.length_append, List.length_cons] at this
    omega

theorem grouping_nil (x : String) : grouping x [] = .name .nowhere x := by
  rw [grouping]
  rfl

theorem grouping_append (x y : String) {op : BinaryOp} {l r : List Link}
    (hl : ∀ q ∈ l, op.level ≤ q.1.level) (hr : ∀ q ∈ r, op.level < q.1.level) :
    grouping x (l ++ (op, y) :: r) = .binary .nowhere op (grouping x l) (grouping y r) := by
  -- the search for the root stops at `op`: nothing is looser, and what is on its right is tighter
  have hroot : loosest (l ++ (op, y) :: r) (op, y) = true := by
    rw [loosest, all_append, all_cons, Bool.and_eq_true, Bool.and_eq_true, all_eq_true, all_eq_true]
    refine ⟨fun q hq => decide_eq_true (hl q hq), decide_eq_true le_rfl, fun q hq => ?_⟩
    exact decide_eq_true (hr q hq).le
  have hright : ∀ q ∈ r, loosest (l ++ (op, y) :: r) q = false := by
    intro q hq
    rw [loosest, all_eq_false]
    refine ⟨(op, y), by simp, ?_⟩
    rw [decide_eq_true_iff]
    exact not_le.2 (hr q hq)
  rw [grouping]
  split
  · rename_i h
    rw [splitLast?_append hroot hright] at h
    cases h
  · rename_i h
    rw [splitLast?_append hroot hright] at h
    cases h
    rfl

example : grouping "a" [(.or, "b"), (.sub, "c"), (.mul, "d"), (.sub, "e"), (.or, "f")] =
    .binary .nowhere .or
      (.binary .nowhere .or (.name .nowhere "a") (.binary .nowhere .sub
          (.binary .nowhere .sub (.name .nowhere "b")
            (.binary .nowhere .mul (.name .nowhere "c") (.name .nowhere "d")))
          (.name .nowhere "e")))
      (.name .nowhere "f") := by
  cbv

/-! ## Tokens of a sequence -/

/-- The tokens of an operator and the name after it. -/
def linkKinds (q : Link) : List TokenKind := q.1.puncts.map .punct ++ [.word q.2]

/-- The tokens of a name with links after it. -/
def chainKinds (x : String) (links : List Link) : List TokenKind :=
  .word x :: links.flatMap linkKinds

/-- The text of a name with links after it. -/
def chainText (x : String) (links : List Link) : String :=
  x ++ String.join (links.map fun q => " " ++ q.1.spelling ++ " " ++ q.2)

/-- The words that do not stand for a name where an expression is read. -/
def expressionWords : List String := ["true", "false", "null", "this", "super", "new", "typeof"]

/-- The mark that an operator begins with is found at its level, and not at a tighter one. -/
theorem operatorEntry_level (op : BinaryOp) : (∃ level, operatorLevels[op.level]? = some level ∧
      level.find? (fun entry => entry.1 = (operatorEntry op).1) = some (operatorEntry op)) ∧
    .punct (operatorEntry op).1 ∉ levelMarks (operatorLevels.drop (op.level + 1)) ∧
    endsCall (.punct (operatorEntry op).1) = true := by
  cases op <;> exact ⟨⟨_, rfl, by decide⟩, by decide, by decide⟩

theorem level_lt (op : BinaryOp) : op.level < operatorLevels.length := by
  cases op <;> decide

theorem headD_links (links : List Link) (k : TokenKind) : (links.flatMap linkKinds).headD k =
    (links.head?.map fun q => .punct (operatorEntry q.1).1).getD k := by
  rcases links with _ | ⟨⟨op, y⟩, links⟩
  · rfl
  · cases op <;> rfl

/-- A name where an operand is read. -/
theorem Snippet.Reads.unary_name {self : Grammar} {w : String} {k : TokenKind}
    (hw : w ∉ expressionWords) (hk : endsCall k = true) :
    Reads (Snippet.unary self) [.word w] k fun e => e.bare = .name .nowhere w := by
  have hname : wordExpr .nowhere w = .name .nowhere w := by
    unfold wordExpr
    -- the words with a meaning of their own are all in the list
    split
    case h_6 => rfl
    all_goals exact absurd (by decide) hw
  have hstarts : Starts [.word w] := Starts.cons rfl
  refine Reads.unary_of_call hstarts ?_ (LeadsTo.reads (LeadsTo.of_primary hstarts ?_ ?_) hk)
  · have htypeof : w ≠ "typeof" := fun h => hw (h ▸ by decide)
    simpa [unsigned] using htypeof
  · have hnew : w ≠ "new" := fun h => hw (h ▸ by decide)
    simpa using hnew
  · intro k
    rw [← hname]
    exact .primary_word w

/-- The links up to the first operator of level `j`, and the rest. -/
theorem exists_stretch {j : Nat} {links : List Link} (h : ∀ q ∈ links, j ≤ q.1.level) :
    ∃ r todo, links = r ++ todo ∧ (∀ q ∈ r, j < q.1.level) ∧ ∀ q ∈ todo.head?, q.1.level = j := by
  induction links with
  | nil => exact ⟨[], [], rfl, by simp, by simp⟩
  | cons q links ih =>
    rw [forall_mem_cons] at h
    by_cases hq : q.1.level = j
    · exact ⟨[], q :: links, rfl, by simp, by simpa using hq⟩
    · obtain ⟨r, todo, rfl, hr, htodo⟩ := ih h.2
      refine ⟨q :: r, todo, rfl, forall_mem_cons.2 ⟨by omega, hr⟩, htodo⟩

/-! ## Reading a sequence -/

section Levels

variable {operand : Parse Expr} {level : List (Punct × BinaryOp)}
  {tighter : List (List (Punct × BinaryOp))} {j : Nat} {k : TokenKind}

/-- The reader gives the grouping of every sequence whose operators are of level `j` or tighter. -/
def Groups (m : Parse Expr) (j : Nat) : Prop :=
  ∀ (x : String) (links : List Link) (k : TokenKind), x ∉ expressionWords →
    (∀ q ∈ links, q.2 ∉ expressionWords) → (∀ q ∈ links, j ≤ q.1.level) → endsCall k = true →
    k ∉ levelMarks (operatorLevels.drop j) →
    Reads m (chainKinds x links) k fun e => e.bare = grouping x links

/-- What follows a stretch of tighter operators is none of them. -/
theorem ends_stretch {todo : List Link} (htodo : ∀ q ∈ todo.head?, q.1.level = j)
    (hcall : endsCall k = true) (hk : k ∉ levelMarks (operatorLevels.drop (j + 1))) :
    endsCall ((todo.flatMap linkKinds).headD k) = true ∧
      (todo.flatMap linkKinds).headD k ∉ levelMarks (operatorLevels.drop (j + 1)) := by
  rw [headD_links]
  rcases todo with _ | ⟨q, todo⟩
  · exact ⟨hcall, hk⟩
  · obtain ⟨-, hmark, hends⟩ := operatorEntry_level q.1
    rw [htodo q rfl] at hmark
    exact ⟨hends, hmark⟩

/-- The loop of a level joins the stretches between its operators from the left: `e` is what has
been read, and `links` is what it was read from. -/
theorem Snippet.Reads.operandsLoop_grouping (htighter : Groups (binary operand tighter) (j + 1))
    (hlevel : operatorLevels[j]? = some level) (hcall : endsCall k = true)
    (hk : k ∉ levelMarks (operatorLevels.drop j)) (x : String) (n : Nat) (links todo : List Link)
    (e : Expr) (he : e.bare = grouping x links) (hlinks : ∀ q ∈ links, j ≤ q.1.level)
    (hwords : ∀ q ∈ todo, q.2 ∉ expressionWords) (htodo : ∀ q ∈ todo, j ≤ q.1.level)
    (hfirst : ∀ q ∈ todo.head?, q.1.level = j) (hn : (todo.flatMap linkKinds).length < n) :
    Reads (operandsLoop level (binary operand tighter) n e) (todo.flatMap linkKinds) k fun e' =>
      e'.bare = grouping x (links ++ todo) := by
  have hdrop : operatorLevels.drop j = level :: operatorLevels.drop (j + 1) := by
    obtain ⟨hlt, rfl⟩ := List.getElem?_eq_some_iff.1 hlevel
    exact drop_eq_getElem_cons hlt
  rw [hdrop] at hk
  obtain ⟨hthis, hnext⟩ := not_mem_levelMarks_cons hk
  -- a round takes one operator of the level and the stretch after it, and moves both to `links`
  induction n generalizing links todo e with
  | zero => omega
  | succ n ih =>
    cases todo with
    | nil =>
      rw [append_nil]
      exact .operandsLoop_nil (P := fun e' => e'.bare = _) he hthis (Nat.succ_pos n)
    | cons q more =>
      obtain ⟨op, y⟩ := q
      have hop : op.level = j := hfirst (op, y) rfl
      rw [forall_mem_cons] at hwords htodo
      obtain ⟨r, todo, rfl, hr, htodo'⟩ := exists_stretch htodo.2
      obtain ⟨⟨level', hlevel', hfind⟩, -, -⟩ := operatorEntry_level op
      rw [hop, hlevel] at hlevel'
      cases hlevel'
      have hkinds : ((op, y) :: (r ++ todo)).flatMap linkKinds =
          op.puncts.map .punct ++ (chainKinds y r ++ todo.flatMap linkKinds) := by
        rw [flatMap_cons, flatMap_append, linkKinds, chainKinds]
        simp
      have hpuncts : 0 < op.puncts.length := by cases op <;> decide
      rw [hkinds] at hn ⊢
      simp only [length_append, length_map] at hn
      refine .bind (.operator?_some hfind (by simp [chainKinds])) fun found hfound => ?_
      obtain rfl := hfound.symm
      obtain ⟨hends, hmark⟩ := ends_stretch htodo' hcall hnext
      refine .bind (htighter y r _ hwords.1 (fun q hq => hwords.2 q (by simp [hq])) hr
        hends hmark) fun right hright => ?_
      have hgoal : links ++ (op, y) :: (r ++ todo) = links ++ (op, y) :: r ++ todo := by simp
      rw [hgoal]
      refine ih _ todo _ ?_ ?_ (fun q hq => hwords.2 q (by simp [hq]))
        (fun q hq => htodo.2 q (by simp [hq])) htodo' (by omega)
      · -- `op` is now the last of the loosest operators, so it is at the root
        rw [grouping_append x y (hop ▸ hlinks) (hop ▸ hr), Expr.bare, he, hright]
      · intro q hq
        rcases mem_append.1 hq with hq | hq
        · exact hlinks q hq
        · rcases mem_cons.1 hq with rfl | hq
          · exact hop.ge
          · exact (hr q hq).le

/-- Every level reads the groupings of its operators and of the tighter ones. -/
theorem binary_groups (hoperand : ∀ w k, w ∉ expressionWords → endsCall k = true →
      Reads operand [.word w] k fun e => e.bare = .name .nowhere w)
    (levels : List (List (Punct × BinaryOp))) (j : Nat) (hlevels : operatorLevels.drop j = levels) :
    Groups (binary operand levels) j := by
  induction levels generalizing j with
  | nil =>
    -- past the last level there is no operator left
    intro x links k hx _ hlinks hcall _
    have hlinks : links = [] := by
      rw [eq_nil_iff_forall_not_mem]
      intro q hq
      have := level_lt q.1
      have := hlinks q hq
      rw [drop_eq_nil_iff] at hlevels
      omega
    subst hlinks
    rw [grouping_nil]
    exact hoperand x k hx hcall
  | cons level tighter ih =>
    intro x links k hx hwords hlinks hcall hk
    have hlevel : operatorLevels[j]? = some level := by
      rw [← head?_drop, hlevels, head?_cons]
    have htighter : operatorLevels.drop (j + 1) = tighter := by
      rw [← tail_drop, hlevels, tail_cons]
    -- the tighter levels read the first stretch, and the loop of this one reads on from there
    obtain ⟨r, todo, rfl, hr, htodo⟩ := exists_stretch hlinks
    have hk' : k ∉ levelMarks (operatorLevels.drop (j + 1)) := by
      rw [hlevels] at hk
      rw [htighter]
      exact (not_mem_levelMarks_cons hk).2
    obtain ⟨hends, hmark⟩ := ends_stretch htodo hcall hk'
    have hkinds : chainKinds x (r ++ todo) = chainKinds x r ++ todo.flatMap linkKinds := by
      rw [chainKinds, chainKinds, flatMap_append, cons_append]
    rw [hkinds]
    refine .bind (ih (j + 1) htighter x r _ hx (fun q hq => hwords q (by simp [hq])) hr hends
      hmark) fun e he => .bounded fun n hn => ?_
    exact .operandsLoop_grouping (ih (j + 1) htighter) hlevel hcall hk x n r todo e he
      (fun q hq => (hr q hq).le) (fun q hq => hwords q (by simp [hq]))
      (fun q hq => hlinks q (by simp [hq])) htodo hn

end Levels

/-- A name with links after it is read as its grouping. -/
theorem expression_groups {self : Grammar} {x : String} {links : List Link}
    (hx : x ∉ expressionWords) (hlinks : ∀ q ∈ links, q.2 ∉ expressionWords) :
    Reads (expression self) (chainKinds x links) .done fun e => e.bare = grouping x links := by
  refine .expression_of_binary ?_ rfl ?_
  · -- no operator begins like an arrow, so the first name is not taken for a parameter
    show (links.flatMap linkKinds).head? ≠ some (.punct .arrow)
    rcases links with _ | ⟨⟨op, y⟩, links⟩
    · simp
    · cases op <;> simp [linkKinds, BinaryOp.puncts]
  · exact binary_groups (fun w k hw hk => .unary_name hw hk) operatorLevels 0 rfl x links .done
      hx hlinks (fun q _ => Nat.zero_le _) rfl (by decide)

/-! ## Texts of a sequence -/

/-- The chunks of an operator and the name after it. -/
def linkChunks (q : Link) : List Chunk :=
  .blank :: (q.1.puncts.map .mark ++ [.blank, .word q.2])

theorem detached_links (links : List Link) : Detached (links.flatMap linkChunks) := by
  cases links with
  | nil => exact .nil
  | cons q links => exact .blank

theorem legible_links (links : List Link) : Legible (links.flatMap linkChunks) := by
  induction links with
  | nil => exact .nil
  | cons q links ih =>
    have hword : Legible (.word q.2 :: links.flatMap linkChunks) :=
      .word q.2 ih (detached_links links)
    have hlink := (q.1.legible hword).blank
    rw [flatMap_cons, linkChunks, cons_append, append_assoc]
    exact hlink

theorem kindsOf_links (links : List Link) :
    kindsOf (links.flatMap linkChunks) = links.flatMap linkKinds := by
  induction links with
  | nil => rfl
  | cons q links ih =>
    rw [flatMap_cons, kindsOf_append, ih, flatMap_cons, linkChunks, linkKinds]
    simp

theorem charsOf_links (links : List Link) : charsOf (links.flatMap linkChunks) =
    (String.join (links.map fun q => " " ++ q.1.spelling ++ " " ++ q.2)).toList := by
  induction links with
  | nil => rfl
  | cons q links ih =>
    rw [flatMap_cons, charsOf_append, ih, map_cons, linkChunks]
    simp [String.join_cons, BinaryOp.spelling_toList]

/-- Names with operators between them are read as their grouping, up to locations: from their tokens
wherever these come from, and from their text, in which `>=` is scanned as two marks. -/
theorem operators_grouped (x : String) (links : List Link) (hx : x ∉ expressionWords)
    (hlinks : ∀ q ∈ links, q.2 ∉ expressionWords) :
    (∀ ts : List Token, ts.map Token.kind = chainKinds x links ++ [.done] →
      ∃ e, readTokens expression ts = (some e, []) ∧ e.bare = grouping x links) ∧
    (isIdentifier x = true → (∀ q ∈ links, isIdentifier q.2 = true) → ∀ base,
      ∃ e, Snippet.read expression base (chainText x links) = .ok e ∧
        e.bare = grouping x links) := by
  refine ⟨fun ts hts => readTokens_of_reads hts (expression_groups hx hlinks), ?_⟩
  intro hname hnames base
  have hkinds : kindsOf (.word x :: links.flatMap linkChunks) = chainKinds x links := by
    rw [kindsOf_word, kindsOf_links, chainKinds]
  have htext : (chainText x links).toList = charsOf (.word x :: links.flatMap linkChunks) := by
    rw [chainText, String.toList_append, charsOf_cons, Chunk.chars_word, charsOf_links]
  have hproper : Proper (.word x :: links.flatMap linkChunks) := by
    intro kind hkind
    rw [hkinds, chainKinds] at hkind
    rcases mem_cons.1 hkind with rfl | hkind
    · exact hname
    · obtain ⟨q, hq, hkind⟩ := mem_flatMap.1 hkind
      rcases mem_append.1 hkind with hkind | hkind
      · obtain ⟨p, -, rfl⟩ := mem_map.1 hkind
        trivial
      · rw [mem_singleton.1 hkind]
        exact hnames q hq
  refine read_of_reads htext (.word x (legible_links links) (detached_links links)) hproper ?_ base
  intro n _
  rw [hkinds]
  exact expression_groups hx hlinks

theorem operators_grouped_mixed :
    "a" ∉ expressionWords ∧ ∃ e, Snippet.read expression .start "a >= b - c * d - e && f || g" =
      .ok e ∧ e.bare = .binary .nowhere .or
        (.binary .nowhere .and (.binary .nowhere .greaterEqual (.name .nowhere "a")
            (.binary .nowhere .sub (.binary .nowhere .sub (.name .nowhere "b")
                (.binary .nowhere .mul (.name .nowhere "c") (.name .nowhere "d")))
              (.name .nowhere "e")))
          (.name .nowhere "f"))
        (.name .nowhere "g") := by
  obtain ⟨e, hread, he⟩ := (operators_grouped "a" [(.greaterEqual, "b"), (.sub, "c"), (.mul, "d"),
    (.sub, "e"), (.and, "f"), (.or, "g")] (by decide) (by decide)).2 (by decide) (by decide) .start
  have htext : chainText "a" [(.greaterEqual, "b"), (.sub, "c"), (.mul, "d"), (.sub, "e"),
      (.and, "f"), (.or, "g")] = "a >= b - c * d - e && f || g" := by decide
  rw [htext] at hread
  refine ⟨by decide, e, hread, he.trans ?_⟩
  cbv

end Componentry
