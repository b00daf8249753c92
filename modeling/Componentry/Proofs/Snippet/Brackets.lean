import Componentry.Proofs.Snippet.Faithful

/-!
# Brackets in printed trees

`nest b d ks` follows how deep the tokens `ks` go into a pair `b` of brackets, from the depth `d`.
Tokens that come out at the depth they started from, and never below it, are closed. The tokens of
every printed tree are closed under parentheses, and under braces without a semicolon outside of
them.
-/

namespace Componentry

open List

/-- A pair of brackets, with marks that may stand only inside of them. -/
structure Brackets where
  left : Punct
  right : Punct
  inner : List Punct

namespace Brackets

/-- Parentheses. -/
def parens : Brackets := ⟨.lparen, .rparen, []⟩

/-- Braces, with semicolons only inside. -/
def braces : Brackets := ⟨.lbrace, .rbrace, [.semicolon]⟩

/-- The depth after the tokens, if they neither come out below where all began nor end the text. -/
def nest (b : Brackets) : Nat → List TokenKind → Option Nat
  | d, [] => some d
  | _, .done :: _ => none
  | d, .punct p :: ks =>
    if p = b.left then b.nest (d + 1) ks
    else if p = b.right then if d = 0 then none else b.nest (d - 1) ks
    else if p ∈ b.inner ∧ d = 0 then none
    else b.nest d ks
  | d, _ :: ks => b.nest d ks

/-- The tokens come out at the depth they started from. -/
def Closed (b : Brackets) (ks : List TokenKind) : Prop := b.nest 0 ks = some 0

/-- The tokens come out at the depth they started from where the inner marks may stand. -/
def Settled (b : Brackets) (ks : List TokenKind) : Prop :=
  ∀ d, b.inner = [] ∨ d ≠ 0 → b.nest d ks = some d

variable {b : Brackets} {ks ls : List TokenKind} {d d' : Nat}

theorem nest_append : b.nest d (ks ++ ls) = (b.nest d ks).bind (b.nest · ls) := by
  induction ks generalizing d with
  | nil => rfl
  | cons k ks ih =>
    cases k with
    | punct p =>
      simp only [cons_append, nest]
      split
      · exact ih
      · split
        · split
          · rfl
          · exact ih
        · split
          · rfl
          · exact ih
    | done => rfl
    | _ => exact ih

/-- Deeper inside, the same tokens come out as much deeper. -/
theorem nest_add (j : Nat) (h : b.nest d ks = some d') : b.nest (d + j) ks = some (d' + j) := by
  induction ks generalizing d with
  | nil =>
    cases h
    rfl
  | cons k ks ih =>
    cases k with
    | punct p =>
      simp only [nest] at h ⊢
      split at h
      · rename_i hleft
        rw [if_pos hleft, show d + j + 1 = d + 1 + j by omega]
        exact ih h
      · rename_i hleft
        rw [if_neg hleft]
        split at h
        · rename_i hright
          rw [if_pos hright]
          split at h
          · cases h
          · rename_i hd
            rw [if_neg (by omega), show d + j - 1 = d - 1 + j by omega]
            exact ih h
        · rename_i hright
          rw [if_neg hright]
          split at h
          · cases h
          · rename_i hinner
            rw [if_neg (fun hp => hinner ⟨hp.1, by omega⟩)]
            exact ih h
    | done => cases h
    | _ => exact ih h

theorem Closed.nest_eq (h : b.Closed ks) (d : Nat) : b.nest d ks = some d := by
  have hadd := nest_add d h
  rwa [Nat.zero_add] at hadd

theorem Closed.settled (h : b.Closed ks) : b.Settled ks := fun d _ => h.nest_eq d

theorem closed_nil : b.Closed [] := rfl

theorem Closed.append (hk : b.Closed ks) (hl : b.Closed ls) : b.Closed (ks ++ ls) := by
  unfold Closed
  rw [nest_append, hk]
  exact hl

theorem Settled.append (hk : b.Settled ks) (hl : b.Settled ls) : b.Settled (ks ++ ls) := by
  intro d hd
  rw [nest_append, hk d hd]
  exact hl d hd

/-- The two pairs of brackets that are followed. -/
def Followed (b : Brackets) : Prop := b = parens ∨ b = braces

theorem followed_parens : parens.Followed := Or.inl rfl

section Followed

variable {α : Type} {f : α → List TokenKind} (hb : b.Followed)
include hb

theorem Followed.word (w : String) : b.Closed [.word w] := by
  rcases hb with rfl | rfl <;> rfl

theorem Followed.quoted (s : String) : b.Closed [.quoted s] := by
  rcases hb with rfl | rfl <;> rfl

theorem Followed.number (v : Binary64) : b.Closed [.number v] := by
  rcases hb with rfl | rfl <;> rfl

/-- A mark that is no bracket and may stand outside of them. -/
theorem Followed.mark {p : Punct}
    (hp : p ∉ [Punct.lparen, .rparen, .lbrace, .rbrace, .semicolon]) : b.Closed [.punct p] := by
  simp only [mem_cons, not_mem_nil, or_false, not_or] at hp
  obtain ⟨h1, h2, h3, h4, h5⟩ := hp
  rcases hb with rfl | rfl
  · simp [Closed, nest, parens, h1, h2]
  · simp [Closed, nest, braces, h3, h4, h5]

theorem Followed.semicolon : b.Settled [.punct .semicolon] := by
  intro d hd
  rcases hb with rfl | rfl
  · rfl
  · rcases hd with hd | hd
    · cases hd
    · simp [nest, braces, hd]

/-- What is closed is so in parentheses. -/
theorem Followed.group (h : b.Closed ks) : b.Closed (.punct .lparen :: ks ++ [.punct .rparen]) := by
  rcases hb with rfl | rfl
  · have hdepth : parens.nest 0 (.punct .lparen :: ks ++ [.punct .rparen]) =
        parens.nest 1 (ks ++ [.punct .rparen]) := rfl
    unfold Closed
    rw [hdepth, nest_append, h.nest_eq 1]
    rfl
  · have hdepth : braces.nest 0 (.punct .lparen :: ks ++ [.punct .rparen]) =
        braces.nest 0 (ks ++ [.punct .rparen]) := rfl
    unfold Closed
    rw [hdepth, nest_append, h]
    rfl

/-- What is settled is closed in braces. -/
theorem Followed.block (h : b.Settled ks) :
    b.Closed (.punct .lbrace :: ks ++ [.punct .rbrace]) := by
  rcases hb with rfl | rfl
  · have hdepth : parens.nest 0 (.punct .lbrace :: ks ++ [.punct .rbrace]) =
        parens.nest 0 (ks ++ [.punct .rbrace]) := rfl
    unfold Closed
    rw [hdepth, nest_append, h 0 (Or.inl rfl)]
    rfl
  · have hdepth : braces.nest 0 (.punct .lbrace :: ks ++ [.punct .rbrace]) =
        braces.nest 1 (ks ++ [.punct .rbrace]) := rfl
    unfold Closed
    rw [hdepth, nest_append, h 1 (Or.inr Nat.one_ne_zero)]
    rfl

omit hb in
/-- What holds of parts and of the mark between them holds of the whole, if it holds of what is
written one after the other. -/
theorem separated_of_parts {P : List TokenKind → Prop} (hnil : P [])
    (happend : ∀ {ks ls}, P ks → P ls → P (ks ++ ls)) {sep : Punct} (hsep : P [.punct sep]) :
    ∀ {xs : List α}, (∀ x ∈ xs, P (f x)) → P (separated sep (xs.map f))
  | [], _ => hnil
  | [x], h => by
    rw [map_singleton, separated_singleton]
    exact h x (mem_singleton_self _)
  | x :: y :: more, h => by
    rw [map_cons, map_cons, separated_cons_cons]
    have hrest : P (separated sep ((y :: more).map f)) :=
      separated_of_parts hnil happend hsep fun z hz => h z (mem_cons_of_mem _ hz)
    exact happend (h x (mem_cons_self ..)) (happend hsep hrest)

/-- Closed parts with a mark between them. -/
theorem Followed.separated {sep : Punct}
    (hsep : sep ∉ [Punct.lparen, .rparen, .lbrace, .rbrace, .semicolon]) {xs : List α}
    (h : ∀ x ∈ xs, b.Closed (f x)) : b.Closed (separated sep (xs.map f)) :=
  separated_of_parts closed_nil Closed.append (hb.mark hsep) h

/-- Closed parts with semicolons between them, which are inner marks. -/
theorem Followed.lined {xs : List α} (h : ∀ x ∈ xs, b.Closed (f x)) :
    b.Settled (Componentry.separated .semicolon (xs.map f)) :=
  separated_of_parts closed_nil.settled Settled.append hb.semicolon fun x hx => (h x hx).settled

/-- A parameter list, the arrow and what follows it. -/
theorem Followed.headed {xs : List α} (h : ∀ x ∈ xs, b.Closed (f x)) (hrest : b.Closed ls) :
    b.Closed (.punct .lparen :: Componentry.separated .comma (xs.map f) ++
      .punct .rparen :: .punct .arrow :: ls) := by
  have hparams := hb.separated (show Punct.comma ∉ _ by decide) h
  have harrow : b.Closed (.punct .arrow :: ls) := Closed.append (hb.mark (by decide)) hrest
  rw [append_cons]
  exact (hb.group hparams).append harrow

theorem Followed.grouped {wrap : Bool} (h : b.Closed ks) : b.Closed (groupedKinds wrap ks) := by
  cases wrap with
  | false => exact h
  | true => exact hb.group h

end Followed

/-! ## Printed trees are closed -/

section Leaves

variable (hb : b.Followed)
include hb

theorem Followed.literal (v : Literal) : b.Closed v.kinds := by
  unfold Literal.kinds Literal.chunks
  split
  · exact hb.word _
  · exact hb.quoted _
  · exact (hb.mark (by decide)).append (hb.number _)
  · exact hb.number _
  · exact hb.word _
  · exact hb.word _

theorem Followed.keyKind (s : String) : b.Closed [keyKind s] := by
  unfold Componentry.keyKind
  split
  · exact hb.word _
  · exact hb.quoted _

theorem Followed.nameKinds (name : String) : b.Closed (nameKinds name) :=
  hb.separated (by decide) fun w _ => hb.word w

theorem Followed.optionalKinds (optional : Bool) : b.Closed (optionalKinds optional) := by
  cases optional with
  | false => exact closed_nil
  | true => exact hb.mark (by decide)

theorem Followed.modifierKinds (m : Option Modifier) : b.Closed (Modifier.kinds m) := by
  cases m with
  | none => exact closed_nil
  | some m => exact hb.word _

theorem Followed.bindingKinds (x : Binding) : b.Closed x.kinds := by
  cases x with
  | name n => exact hb.word n
  | elements ns =>
    exact Closed.append ((hb.mark (by decide)).append
      (hb.separated (by decide) fun n _ => hb.word n)) (hb.mark (by decide))

theorem Followed.puncts (op : BinaryOp) : b.Closed (op.puncts.map .punct) := by
  rcases hb with rfl | rfl <;> cases op <;> rfl

theorem Followed.unaryKind (op : UnaryOp) : b.Closed [op.kind] := by
  rcases hb with rfl | rfl <;> cases op <;> rfl

end Leaves

mutual

theorem Followed.expr (hb : b.Followed) : ∀ e : Expr, b.Closed e.kinds
  | .literal _ v => by rw [Expr.kinds_literal]; exact hb.literal v
  | .name _ n => by rw [Expr.kinds_name]; exact hb.word n
  | .self _ => by rw [Expr.kinds_self]; exact hb.word _
  | .parent _ => by rw [Expr.kinds_parent]; exact hb.word _
  | .member _ o p => by
    rw [Expr.kinds_member]
    exact (hb.expr o).append ((hb.mark (by decide)).append (hb.word p))
  | .index _ o k => by
    rw [Expr.kinds_index]
    exact ((hb.expr o).append ((hb.mark (by decide)).append (hb.expr k))).append
      (hb.mark (by decide))
  | .call _ c args => by
    rw [Expr.kinds_call, append_assoc]
    exact (hb.grouped (hb.expr c)).append
      (hb.group (hb.separated (by decide) (hb.exprs args)))
  | .create _ c args => by
    rw [Expr.kinds_create, append_assoc]
    exact ((hb.word _).append (hb.expr c)).append
      (hb.group (hb.separated (by decide) (hb.exprs args)))
  | .array _ es => by
    rw [Expr.kinds_array]
    exact ((hb.mark (by decide)).append (hb.separated (by decide) (hb.exprs es))).append
      (hb.mark (by decide))
  | .object _ ps => by
    rw [Expr.kinds_object]
    exact hb.block (hb.separated (by decide) (hb.properties ps)).settled
  | .arrow _ ps body => by
    rw [Expr.kinds_arrow]
    exact hb.headed (hb.params ps) (hb.body body)
  | .binary _ op l r => by
    rw [Expr.kinds_binary]
    exact ((hb.grouped (hb.expr l)).append (hb.puncts op)).append
      (hb.grouped (hb.expr r))
  | .unary _ op x => by
    rw [Expr.kinds_unary]
    exact (hb.unaryKind op).append (hb.grouped (hb.expr x))
  | .assign _ t v => by
    rw [Expr.kinds_assign]
    exact (hb.expr t).append ((hb.mark (by decide)).append (hb.expr v))

theorem Followed.exprs (hb : b.Followed) : ∀ es : List Expr, ∀ e ∈ es, b.Closed e.kinds
  | [] => nofun
  | e :: es => forall_mem_cons.2 ⟨hb.expr e, hb.exprs es⟩

theorem Followed.property (hb : b.Followed) : ∀ p : Property, b.Closed p.kinds
  | .mk _ k v => by
    rw [Property.kinds_mk]
    exact (hb.keyKind k).append ((hb.mark (by decide)).append (hb.expr v))

theorem Followed.properties (hb : b.Followed) : ∀ ps : List Property, ∀ p ∈ ps, b.Closed p.kinds
  | [] => nofun
  | p :: ps => forall_mem_cons.2 ⟨hb.property p, hb.properties ps⟩

theorem Followed.body (hb : b.Followed) : ∀ body : ArrowBody, b.Closed body.kinds
  | .value e => by rw [ArrowBody.kinds_value]; exact hb.grouped (hb.expr e)
  | .block ss => by rw [ArrowBody.kinds_block]; exact hb.block (hb.stmts ss)

theorem Followed.core (hb : b.Followed) : ∀ s : Stmt, b.Closed s.core
  | .run _ e => hb.expr e
  | .bind _ kind binding t v => by
    exact (((hb.word _).append (hb.bindingKinds binding)).append (hb.suffix t)).append
      (hb.init v)
  | .yield _ none => hb.word _
  | .yield _ (some e) => (hb.word _).append (hb.expr e)
  | .block _ ss => hb.block (hb.stmts ss)

theorem Followed.stmts (hb : b.Followed) : ∀ ss : List Stmt, b.Settled (ss.flatMap Stmt.kinds)
  | [] => closed_nil.settled
  | s :: ss => by
    rw [flatMap_cons, Stmt.kinds_eq]
    refine ((hb.core s).settled.append ?_).append (hb.stmts ss)
    cases s with
    | block _ _ => exact closed_nil.settled
    | _ => exact hb.semicolon

theorem Followed.init (hb : b.Followed) : ∀ v : Option Expr, b.Closed (Expr.initKinds v)
  | none => closed_nil
  | some e => (hb.mark (by decide)).append (hb.expr e)

theorem Followed.type (hb : b.Followed) : ∀ t : TypeExpr, b.Closed t.kinds
  | .reference _ n [] => by rw [TypeExpr.kinds_reference_nil]; exact hb.nameKinds n
  | .reference _ n (a :: as) => by
    rw [TypeExpr.kinds_reference_cons]
    exact ((hb.nameKinds n).append ((hb.mark (by decide)).append
      (hb.separated (by decide) (hb.types (a :: as))))).append (hb.mark (by decide))
  | .literal _ v => by rw [TypeExpr.kinds_literal]; exact hb.literal v
  | .union _ ms => by
    rw [TypeExpr.kinds_union]
    exact hb.separated (by decide) (hb.types ms)
  | .intersection _ ms => by
    rw [TypeExpr.kinds_intersection]
    exact hb.separated (by decide) (hb.types ms)
  | .array _ t => by
    rw [TypeExpr.kinds_array]
    exact (hb.grouped (hb.type t)).append
      ((hb.mark (by decide)).append (hb.mark (by decide)))
  | .tuple _ ts => by
    rw [TypeExpr.kinds_tuple]
    exact ((hb.mark (by decide)).append (hb.separated (by decide) (hb.types ts))).append
      (hb.mark (by decide))
  | .object _ ps => by
    rw [TypeExpr.kinds_object]
    exact hb.block (hb.lined (hb.signatures ps))
  | .query _ e => by
    rw [TypeExpr.kinds_query]
    exact (hb.word _).append (hb.expr e)
  | .function _ ps none => by
    rw [TypeExpr.kinds_function_none]
    exact hb.headed (hb.params ps) (hb.word "void")
  | .function _ ps (some r) => by
    rw [TypeExpr.kinds_function_some]
    exact hb.headed (hb.params ps) (hb.type r)
  | .conditional _ x y z w => by
    rw [TypeExpr.kinds_conditional]
    exact ((((hb.type x).append ((hb.word _).append (hb.type y))).append
      ((hb.mark (by decide)).append (hb.type z))).append
      ((hb.mark (by decide)).append (hb.type w)))

theorem Followed.types (hb : b.Followed) : ∀ ts : List TypeExpr, ∀ t ∈ ts, b.Closed t.kinds
  | [] => nofun
  | t :: ts => forall_mem_cons.2 ⟨hb.type t, hb.types ts⟩

theorem Followed.suffix (hb : b.Followed) : ∀ t : Option TypeExpr, b.Closed (TypeExpr.suffixKinds t)
  | none => closed_nil
  | some t => (hb.mark (by decide)).append (hb.type t)

theorem Followed.signature (hb : b.Followed) : ∀ p : PropertyType, b.Closed p.kinds
  | .mk n optional t => by
    rw [PropertyType.kinds_mk]
    exact ((hb.keyKind n).append (hb.optionalKinds optional)).append
      ((hb.mark (by decide)).append (hb.type t))

theorem Followed.signatures (hb : b.Followed) : ∀ ps : List PropertyType, ∀ p ∈ ps, b.Closed p.kinds
  | [] => nofun
  | p :: ps => forall_mem_cons.2 ⟨hb.signature p, hb.signatures ps⟩

theorem Followed.param (hb : b.Followed) : ∀ p : Param, b.Closed p.kinds
  | .mk _ m n optional t => by
    rw [Param.kinds_mk]
    exact ((hb.modifierKinds m).append ((hb.word n).append (hb.optionalKinds optional))).append
      (hb.suffix t)

theorem Followed.params (hb : b.Followed) : ∀ ps : List Param, ∀ p ∈ ps, b.Closed p.kinds
  | [] => nofun
  | p :: ps => forall_mem_cons.2 ⟨hb.param p, hb.params ps⟩

end

end Brackets

end Componentry
