import Componentry.Proofs.Snippet.Brackets
import Componentry.Proofs.Snippet.Parsing

/-!
# How printed trees begin

A printed tree begins with a token that no other token of the grammar can be taken for: never with
a closing bracket, a separator or an arrow. An expression that is not an arrow function also does
not look like one, neither as a word in front of an arrow nor as a group in front of an arrow.
-/

namespace Componentry

open Snippet List

variable {k x : TokenKind}

/-! ## First tokens -/

/-- The token can be the first of a tree. -/
def TokenKind.starts : TokenKind → Bool
  | .word _ | .number _ | .quoted _ => true
  | .punct p => p ∈ [Punct.lparen, .lbracket, .lbrace, .bang, .minus]
  | .done => false

/-- The tokens begin like a tree. -/
def Starts (ks : List TokenKind) : Prop := ∃ k ls, ks = k :: ls ∧ k.starts = true

namespace Starts

variable {ks ls : List TokenKind}

theorem cons (h : k.starts = true) : Starts (k :: ks) := ⟨k, ks, rfl, h⟩

theorem append (h : Starts ks) : Starts (ks ++ ls) := by
  obtain ⟨k, rest, rfl, hk⟩ := h
  exact ⟨k, rest ++ ls, rfl, hk⟩

theorem grouped {wrap : Bool} (h : Starts ks) : Starts (groupedKinds wrap ks) := by
  cases wrap with
  | false => exact h
  | true => exact cons rfl

/-- The first token is not one that cannot be the first. -/
theorem head_ne (h : Starts ks) (hx : x.starts = false) : ks.headD k ≠ x := by
  obtain ⟨y, rest, rfl, hy⟩ := h
  rintro rfl
  rw [headD_cons, hy] at hx
  cases hx

theorem head?_ne (h : Starts ks) (hx : x.starts = false) : ks.head? ≠ some x := by
  obtain ⟨y, rest, rfl, hy⟩ := h
  intro heq
  cases heq
  rw [hy] at hx
  cases hx

theorem length_pos (h : Starts ks) : 0 < ks.length := by
  obtain ⟨k, rest, rfl, -⟩ := h
  exact Nat.succ_pos _

theorem separated {sep : Punct} {kss : List (List TokenKind)} (h : Starts ks) :
    Starts (separated sep (ks :: kss)) := by
  cases kss with
  | nil =>
    rw [separated_singleton]
    exact h
  | cons ls more =>
    rw [separated_cons_cons]
    exact h.append

theorem literal (v : Literal) : Starts v.kinds := by
  unfold Literal.kinds Literal.chunks
  split <;> exact cons rfl

theorem keyKind (s : String) : (Componentry.keyKind s).starts = true := by
  unfold Componentry.keyKind
  split <;> rfl

theorem unaryKind (op : UnaryOp) : op.kind.starts = true := by
  cases op <;> rfl

theorem expr (e : Expr) : Starts e.kinds := by
  cases e with
  | literal loc v => rw [Expr.kinds_literal]; exact literal v
  | name loc n => rw [Expr.kinds_name]; exact cons rfl
  | self loc => rw [Expr.kinds_self]; exact cons rfl
  | parent loc => rw [Expr.kinds_parent]; exact cons rfl
  | member loc o p => rw [Expr.kinds_member]; exact (expr o).append
  | index loc o i => rw [Expr.kinds_index]; exact (expr o).append.append
  | call loc c args => rw [Expr.kinds_call]; exact (expr c).grouped.append.append
  | create loc c args => rw [Expr.kinds_create]; exact cons rfl
  | array loc es => rw [Expr.kinds_array]; exact cons rfl
  | object loc ps => rw [Expr.kinds_object]; exact cons rfl
  | arrow loc ps b => rw [Expr.kinds_arrow]; exact cons rfl
  | binary loc op l r => rw [Expr.kinds_binary]; exact (expr l).grouped.append.append
  | unary loc op x => rw [Expr.kinds_unary]; exact cons (unaryKind op)
  | assign loc t v => rw [Expr.kinds_assign]; exact (expr t).append

theorem nameKinds (name : String) : Starts (nameKinds name) := by
  unfold Componentry.nameKinds
  cases h : nameWords name with
  | nil => exact absurd h (by simp [nameWords, splitOn_ne_nil])
  | cons w ws => exact (cons rfl : Starts [.word w]).separated

/-- A type that fits is printed as something. -/
theorem type : ∀ (t : TypeExpr) {slot : TypeSlot} {last : Bool}, t.fits slot last = true →
    Starts t.kinds
  | .reference _ n [], _, _, _ => by rw [TypeExpr.kinds_reference_nil]; exact nameKinds n
  | .reference _ n (_ :: _), _, _, _ => by
    rw [TypeExpr.kinds_reference_cons]
    exact (nameKinds n).append.append
  | .literal _ v, _, _, _ => by rw [TypeExpr.kinds_literal]; exact literal v
  | .union _ [], _, _, h | .union _ [t], _, _, h => by simp [TypeExpr.fits] at h
  | .union _ (t :: u :: ms), _, _, h => by
    simp only [TypeExpr.fits, TypeExpr.fitsMembers, Bool.and_eq_true] at h
    rw [TypeExpr.kinds_union]
    exact (type t h.2.1).separated
  | .intersection _ [], _, _, h | .intersection _ [t], _, _, h => by simp [TypeExpr.fits] at h
  | .intersection _ (t :: u :: ms), _, _, h => by
    simp only [TypeExpr.fits, TypeExpr.fitsMembers, Bool.and_eq_true] at h
    rw [TypeExpr.kinds_intersection]
    exact (type t h.2.1).separated
  | .array _ t, _, _, h => by
    rw [TypeExpr.kinds_array]
    rw [TypeExpr.fits] at h
    split at h
    · exact (type t h).grouped.append
    · exact (type t h).grouped.append
  | .tuple _ ts, _, _, _ => by rw [TypeExpr.kinds_tuple]; exact cons rfl
  | .object _ ps, _, _, _ => by rw [TypeExpr.kinds_object]; exact cons rfl
  | .query _ e, _, _, _ => by rw [TypeExpr.kinds_query]; exact cons rfl
  | .function _ ps none, _, _, _ => by rw [TypeExpr.kinds_function_none]; exact cons rfl
  | .function _ ps (some r), _, _, _ => by rw [TypeExpr.kinds_function_some]; exact cons rfl
  | .conditional _ a b c d, _, _, h => by
    simp only [TypeExpr.fits, Bool.and_eq_true] at h
    rw [TypeExpr.kinds_conditional]
    exact (type a h.1.1.1.2).append.append.append

theorem stmt (s : Stmt) : Starts s.kinds := by
  rw [Stmt.kinds_eq]
  cases s with
  | run loc e => exact (expr e).append
  | yield loc v => cases v <;> exact cons rfl
  | _ => exact cons rfl

theorem property (p : Property) : Starts p.kinds := by
  cases p with
  | mk loc k v =>
    rw [Property.kinds_mk]
    exact cons (keyKind k)

theorem signature (p : PropertyType) : Starts p.kinds := by
  cases p with
  | mk n optional t =>
    rw [PropertyType.kinds_mk]
    exact cons (keyKind n)

theorem param (p : Param) : Starts p.kinds := by
  cases p with
  | mk loc m n optional t =>
    rw [Param.kinds_mk]
    cases m <;> exact cons rfl

end Starts

/-! ## What does not look like an arrow function -/

/-- The tokens after the closing of the parenthesis in front. -/
theorem afterClosing_append {us rest : List Token} {d d' : Nat}
    (h : Brackets.parens.nest d (us.map Token.kind) = some d') :
    afterClosing (d + 1) (us ++ rest) = afterClosing (d' + 1) rest := by
  induction us generalizing d with
  | nil =>
    cases h
    rfl
  | cons u us ih =>
    rw [map_cons] at h
    rw [cons_append]
    cases hu : u.kind with
    | punct p =>
      rw [hu] at h
      cases p with
      | lparen =>
        simp only [afterClosing, hu]
        exact ih h
      | rparen =>
        cases d with
        | zero => cases h
        | succ d =>
          simp only [afterClosing, hu]
          exact ih h
      | _ =>
        simp only [afterClosing, hu]
        exact ih h
    | done =>
      rw [hu] at h
      cases h
    | _ =>
      rw [hu] at h
      simp only [afterClosing, hu]
      exact ih h

/-- Looking at what follows the group in front. -/
theorem Snippet.Reads.arrowFollows {β : Type} {f : Bool → Parse β} {ks ls : List TokenKind}
    {Q : β → Prop} (hks : Brackets.parens.Closed ks)
    (h : Reads (f (ls.headD k == .punct .arrow)) (.punct .lparen :: ks ++ .punct .rparen :: ls) k
      Q) : Reads (arrowFollows >>= f) (.punct .lparen :: ks ++ .punct .rparen :: ls) k Q := by
  intro ts rest hts hk
  obtain ⟨b, hb, hq⟩ := h ts rest hts hk
  refine ⟨b, parses_arrowFollows_bind.2 ?_, hq⟩
  obtain ⟨us, vs, rfl, hus, hvs⟩ := map_eq_append_iff.1 hts
  obtain ⟨l, us, rfl, hl, hus⟩ := map_eq_cons_iff.1 hus
  obtain ⟨r, vs, rfl, hr, hvs⟩ := map_eq_cons_iff.1 hvs
  have hopen : afterClosing 0 (l :: us ++ r :: vs ++ rest) =
      afterClosing 1 (us ++ (r :: vs ++ rest)) := by
    rw [append_assoc, cons_append]
    simp only [afterClosing, hl]
  have hclose : afterClosing 1 (r :: vs ++ rest) = some (vs ++ rest) := by
    rw [cons_append]
    simp only [afterClosing, hr, if_true]
  rw [hopen, afterClosing_append (hus.symm ▸ hks), hclose, Option.bind_some]
  have hnext : ((vs ++ rest).head?.any fun t => t.isPunct .arrow) =
      (ls.headD k == .punct .arrow) := by
    rw [← Reads.head_append hvs hk]
    cases vs ++ rest with
    | nil => rfl
    | cons t more => rfl
  rw [hnext]
  exact hb

/-- The tokens do not begin like an arrow function. -/
def Unarrowed : List TokenKind → Prop
  | [] => False
  | .word _ :: ks => ks.head? ≠ some (.punct .arrow)
  | .punct .lparen :: ks => ∃ inner ls, ks = inner ++ .punct .rparen :: ls ∧
      Brackets.parens.Closed inner ∧ ls.head? ≠ some (.punct .arrow)
  | _ => True

namespace Unarrowed

variable {ks ls : List TokenKind}

theorem head?_append_ne (h : ks.head? ≠ some x) (hls : ls.head? ≠ some x) :
    (ks ++ ls).head? ≠ some x := by
  cases ks with
  | nil => exact hls
  | cons k ks => exact h

theorem append (h : Unarrowed ks) (hls : ls.head? ≠ some (.punct .arrow)) :
    Unarrowed (ks ++ ls) := by
  cases ks with
  | nil => exact h.elim
  | cons k ks =>
    cases k with
    | word w => exact head?_append_ne h hls
    | punct p =>
      cases p with
      | lparen =>
        obtain ⟨inner, rest, rfl, hinner, hrest⟩ := h
        refine ⟨inner, rest ++ ls, ?_, hinner, head?_append_ne hrest hls⟩
        exact append_assoc inner (.punct .rparen :: rest) ls
      | _ => exact trivial
    | _ => exact trivial

theorem group (hks : Brackets.parens.Closed ks) (hls : ls.head? ≠ some (.punct .arrow)) :
    Unarrowed (.punct .lparen :: ks ++ [.punct .rparen] ++ ls) := by
  refine ⟨ks, ls, ?_, hks, hls⟩
  exact append_assoc ks [.punct .rparen] ls

theorem literal (v : Literal) : Unarrowed v.kinds := by
  unfold Literal.kinds Literal.chunks
  split <;> first | exact trivial | exact nofun

/-- Parentheses around what is an arrow function, or none. -/
theorem grouped {e : Expr} {wrap : Bool} (hwrap : e.isArrow = true → wrap = true)
    (he : e.isArrow = false → Unarrowed e.kinds) (hls : ls.head? ≠ some (.punct .arrow)) :
    Unarrowed (groupedKinds wrap e.kinds ++ ls) := by
  cases wrap with
  | true => exact group (Brackets.followed_parens.expr e) hls
  | false =>
    refine (he ?_).append hls
    cases h : e.isArrow with
    | false => rfl
    | true => cases hwrap h

end Unarrowed

/-- An arrow function stands only where every expression can. -/
theorem Expr.isArrow_of_fits {e : Expr} {slot : Slot} (h : e.fits slot = true)
    (hslot : slot ≠ .whole) : e.isArrow = false := by
  cases e with
  | arrow loc ps b => simp [Expr.fits, hslot] at h
  | _ => rfl

theorem Slot.object_ne_whole (slot : Slot) : slot.object ≠ .whole := by
  cases slot <;> exact nofun

/-- An expression that is not an arrow function does not look like one. -/
theorem Expr.unarrowed : ∀ (e : Expr) {slot : Slot}, e.fits slot = true → e.isArrow = false →
    Unarrowed e.kinds
  | .literal _ v, _, _, _ => by rw [Expr.kinds_literal]; exact .literal v
  | .name _ n, _, _, _ => by rw [Expr.kinds_name]; exact nofun
  | .self _, _, _, _ => by rw [Expr.kinds_self]; exact nofun
  | .parent _, _, _, _ => by rw [Expr.kinds_parent]; exact nofun
  | .member _ o p, slot, h, _ => by
    rw [Expr.fits] at h
    rw [Expr.kinds_member]
    exact (o.unarrowed h (isArrow_of_fits h slot.object_ne_whole)).append nofun
  | .index _ o i, slot, h, _ => by
    simp only [Expr.fits, Bool.and_eq_true] at h
    rw [Expr.kinds_index, append_assoc]
    exact (o.unarrowed h.1.2 (isArrow_of_fits h.1.2 slot.object_ne_whole)).append nofun
  | .call _ c args, slot, h, _ => by
    simp only [Expr.fits, Bool.and_eq_true] at h
    rw [Expr.kinds_call, append_assoc]
    exact .grouped id (c.unarrowed h.1.2) nofun
  | .create _ c args, _, h, _ => by
    rw [Expr.kinds_create, append_assoc]
    exact (Starts.expr c).append.head?_ne rfl
  | .array _ es, _, _, _ => by rw [Expr.kinds_array]; exact trivial
  | .object _ ps, _, _, _ => by rw [Expr.kinds_object]; exact trivial
  | .arrow _ ps b, _, _, h => nomatch h
  | .binary _ op l r, _, h, _ => by
    simp only [Expr.fits, Bool.and_eq_true] at h
    rw [Expr.kinds_binary, append_assoc]
    refine .grouped ?_ (l.unarrowed h.1.2) (by cases op <;> exact nofun)
    intro hl
    cases l with
    | arrow loc ps b => rfl
    | _ => cases hl
  | .unary _ op x, _, h, _ => by
    rw [Expr.kinds_unary]
    cases op with
    | typeOf => exact (Starts.expr x).grouped.head?_ne rfl
    | _ => exact trivial
  | .assign _ t v, _, h, _ => by
    simp only [Expr.fits, Bool.and_eq_true] at h
    rw [Expr.kinds_assign]
    exact (t.unarrowed h.1.2 (isArrow_of_fits h.1.2 nofun)).append nofun

end Componentry
