import Componentry.Proofs.Snippet.TypeRules

/-!
# Printed trees are read back

A tree that fits is read back from its tokens, by the rule of the slot it stands in: what is read
is the tree without its locations. The proof is by induction on the tree, for all slots at once.
The grammar may be unrolled any number of times that the number of tokens does not exceed, since
every rule reads a token before it falls back on the grammar.
-/

namespace Componentry

open Snippet List

variable {e : Expr} {slot : TypeSlot} {ms : List TypeExpr} {ss : List Stmt} {ps : List Param}

/-! ## What is read back -/

/-- The expression is read back in every slot that it fits. -/
structure Expr.Rereads (e : Expr) : Prop where
  created : e.fits .created = true → ∀ n, e.kinds.length ≤ n →
    LeadsTo (callee (grammar n)) membersLoop e.kinds e.Same
  callee : e.fits .callee = true → ∀ n, e.kinds.length ≤ n →
    LeadsTo (Snippet.call (grammar n)) (suffixesLoop (grammar n)) e.kinds e.Same
  operand : e.fits .operand = true → ∀ n k, e.kinds.length ≤ n → endsCall k = true →
    Reads (Snippet.unary (grammar n)) e.kinds k e.Same
  operators : e.fits .operators = true → ∀ n k, e.kinds.length ≤ n → endsOperators k = true →
    Reads (Snippet.binary (Snippet.unary (grammar n)) operatorLevels) e.kinds k e.Same
  whole : e.fits .whole = true → ∀ n k, e.kinds.length ≤ n → endsExpr k = true →
    Reads (expression (grammar n)) e.kinds k e.Same

/-- The entry is read back. -/
def Property.Rereads (p : Property) : Prop :=
  p.fits = true → ∀ n k, p.kinds.length ≤ n → endsExpr k = true →
    Reads (property (grammar n)) p.kinds k p.Same

/-- The body of an arrow function is read back. -/
def ArrowBody.Rereads (b : ArrowBody) : Prop :=
  b.fits = true → ∀ n k, b.kinds.length < n → endsExpr k = true →
    Reads (arrowBody (grammar n)) (.punct .arrow :: b.kinds) k b.Same

/-- The statement is read back. -/
def Stmt.Rereads (s : Stmt) : Prop :=
  s.fits = true → ∀ n k, s.kinds.length ≤ n → k ≠ .punct .semicolon →
    Reads (statement (grammar n)) s.kinds k s.Same

/-- The tokens that a type in the slot would take in. -/
def TypeSlot.stops (slot : TypeSlot) : List TokenKind :=
  let part : List TokenKind :=
    [.punct .dot, .punct .less, .punct .arrow, .punct .lbracket, .punct .lparen]
  match slot with
  | .element => [.punct .dot, .punct .less, .punct .arrow]
  | .part => part
  | .member => .punct .amp :: part
  | .union => .punct .pipe :: .punct .amp :: part
  | .whole => .word "extends" :: .punct .pipe :: .punct .amp :: part

/-- The token cannot be taken in by a type in the slot, nor by the result of a function type. -/
def TypeSlot.ends (slot : TypeSlot) (last : Bool) (k : TokenKind) : Bool :=
  k ∉ slot.stops && (!last || k ∉ TypeSlot.whole.stops)

/-- The type is read back in every slot that it fits. -/
structure TypeExpr.Rereads (t : TypeExpr) : Prop where
  element : ∀ last, t.fits .element last = true → ∀ n, t.kinds.length ≤ n →
    LeadsToArrays (grammar n) t.kinds t.Same
  part : ∀ last, t.fits .part last = true → ∀ n k, t.kinds.length ≤ n →
    TypeSlot.part.ends last k = true →
    Reads (arrayType (grammar n)) t.kinds k t.Same
  member : ∀ last, t.fits .member last = true → ∀ n k, t.kinds.length ≤ n →
    TypeSlot.member.ends last k = true →
    Reads (intersectionType (grammar n)) t.kinds k t.Same
  union : ∀ last, t.fits .union last = true → ∀ n k, t.kinds.length ≤ n →
    TypeSlot.union.ends last k = true →
    Reads (unionType (grammar n)) t.kinds k t.Same
  whole : ∀ last, t.fits .whole last = true → ∀ n k, t.kinds.length ≤ n →
    TypeSlot.whole.ends last k = true →
    Reads (type (grammar n)) t.kinds k t.Same

/-- The property of an object type is read back. -/
def PropertyType.Rereads (p : PropertyType) : Prop :=
  p.fits = true → ∀ n, p.kinds.length ≤ n → ∀ mark ∈ [Punct.semicolon, .rbrace],
    Reads (propertySignature (grammar n)) p.kinds (.punct mark) p.Same

/-- The parameter is read back. -/
def Param.Rereads (p : Param) : Prop :=
  p.fits = true → ∀ n, p.kinds.length ≤ n → ∀ mark ∈ [Punct.comma, .rparen],
    Reads (param (grammar n)) p.kinds (.punct mark) p.Same

/-! ## Falling back on the grammar -/

section Inner

variable {n : Nat} {k : TokenKind}

theorem Expr.Rereads.inner (h : e.Rereads) (hfits : e.fits .whole = true)
    (hn : e.kinds.length < n) (hk : endsExpr k = true) :
    Reads (grammar n).expression e.kinds k e.Same := by
  obtain ⟨n, rfl⟩ : ∃ m, n = m + 1 := ⟨n - 1, by omega⟩
  exact h.whole hfits n k (by omega) hk

theorem Stmt.Rereads.inner {s : Stmt} (h : s.Rereads) (hfits : s.fits = true)
    (hn : s.kinds.length < n) (hk : k ≠ .punct .semicolon) :
    Reads (grammar n).statement s.kinds k s.Same := by
  obtain ⟨n, rfl⟩ : ∃ m, n = m + 1 := ⟨n - 1, by omega⟩
  exact h hfits n k (by omega) hk

theorem TypeExpr.Rereads.inner {t : TypeExpr} (h : t.Rereads) (hfits : t.fits .whole true = true)
    (hn : t.kinds.length < n) (hk : TypeSlot.whole.ends true k = true) :
    Reads (grammar n).type t.kinds k t.Same := by
  obtain ⟨n, rfl⟩ : ∃ m, n = m + 1 := ⟨n - 1, by omega⟩
  exact h.whole true hfits n k (by omega) hk

/-- The items of a list are shorter than the list with a mark around it. -/
theorem length_lt_of_mem {β : Type} {kinds : β → List TokenKind} {sep : Punct} {xs : List β} {x : β}
    (hx : x ∈ xs) (hn : (separated sep (xs.map kinds)).length < n) : (kinds x).length < n :=
  Nat.lt_of_le_of_lt (length_le_separated (mem_map_of_mem hx)) hn

/-- Expressions between commas. -/
theorem Expr.Rereads.items {es : List Expr} (h : ∀ e ∈ es, e.Rereads)
    (hfits : Expr.fitsAll es = true) (hn : (separated .comma (es.map Expr.kinds)).length < n)
    {close : Punct} (hclose : endsExpr (.punct close) = true) :
    ∀ e ∈ es, ∀ p ∈ [Punct.comma, close],
      Reads (grammar n).expression e.kinds (.punct p) e.Same := by
  have hends : ∀ p ∈ [Punct.comma, close], endsExpr (.punct p) = true :=
    forall_mem_cons.2 ⟨rfl, forall_mem_singleton.2 hclose⟩
  intro e he p hp
  exact (h e he).inner ((Expr.fitsAll_iff es).1 hfits e he) (length_lt_of_mem he hn) (hends p hp)

/-- Types between commas. -/
theorem TypeExpr.Rereads.items {ts : List TypeExpr} (h : ∀ t ∈ ts, t.Rereads)
    (hfits : TypeExpr.fitsAll ts = true)
    (hn : (separated .comma (ts.map TypeExpr.kinds)).length < n)
    {close : Punct} (hclose : TypeSlot.whole.ends true (.punct close) = true) :
    ∀ t ∈ ts, ∀ p ∈ [Punct.comma, close],
      Reads (grammar n).type t.kinds (.punct p) t.Same := by
  have hends : ∀ p ∈ [Punct.comma, close], TypeSlot.whole.ends true (.punct p) = true :=
    forall_mem_cons.2 ⟨rfl, forall_mem_singleton.2 hclose⟩
  intro t ht p hp
  exact (h t ht).inner ((TypeExpr.fitsAll_iff ts).1 hfits t ht) (length_lt_of_mem ht hn)
    (hends p hp)

theorem Param.Rereads.items (h : ∀ p ∈ ps, p.Rereads) (hfits : Param.fitsAll ps = true)
    (hn : (separated .comma (ps.map Param.kinds)).length < n) :
    ∀ p ∈ ps, ∀ mark ∈ [Punct.comma, .rparen],
      Reads (param (grammar n)) p.kinds (.punct mark) p.Same := by
  intro p hp mark hmark
  exact h p hp ((Param.fitsAll_iff ps).1 hfits p hp) n
    (Nat.le_of_lt (length_lt_of_mem hp hn)) mark hmark

end Inner

/-! ## From slot to slot -/

/-- The expression is none of those that only some slots take. -/
def Expr.isChain : Expr → Bool
  | .arrow _ _ _ | .binary _ _ _ _ | .unary _ _ _ | .assign _ _ _ => false
  | _ => true

theorem Expr.fits_start_of_chain (hchain : e.isChain = true) {slot : Slot}
    (hslot : slot ∈ [Slot.operand, .operators, .whole]) (h : e.fits slot = true) :
    e.fits .start = true := by
  fin_cases hslot <;> cases e <;> first | exact h | cases hchain

theorem unsigned_append {ks ls : List TokenKind} (hks : Starts ks) (h : unsigned ks = true) :
    unsigned (ks ++ ls) = true := by
  obtain ⟨k, more, rfl, -⟩ := hks
  exact h

/-- What starts an operand can be called, and is no operator. -/
theorem Expr.of_fits_start : ∀ {e : Expr}, e.fits .start = true →
    e.fits .callee = true ∧ unsigned e.kinds = true
  | .literal _ v, h => by
    refine ⟨h, ?_⟩
    rw [Expr.kinds_literal]
    unfold Literal.kinds Literal.chunks
    split <;> first | rfl | (split <;> rfl) | cases h
  | .name _ n, h => by
    simp only [Expr.fits, Slot.takesName, Bool.and_eq_true, bne_iff_ne] at h ⊢
    exact ⟨⟨h.1, h.2.1⟩, by simp [unsigned, h.2.2]⟩
  | .self _, _ => ⟨rfl, by rw [Expr.kinds_self]; rfl⟩
  | .parent _, _ => ⟨rfl, by rw [Expr.kinds_parent]; rfl⟩
  | .member _ o _, h => by
    rw [Expr.fits] at h ⊢
    obtain ⟨hcallee, hunsigned⟩ := Expr.of_fits_start h
    rw [Expr.kinds_member]
    exact ⟨hcallee, unsigned_append (Starts.expr o) hunsigned⟩
  | .index _ o i, h => by
    simp only [Expr.fits, Bool.and_eq_true] at h ⊢
    obtain ⟨hcallee, hunsigned⟩ := Expr.of_fits_start h.1.2
    rw [Expr.kinds_index, append_assoc]
    exact ⟨⟨⟨rfl, hcallee⟩, h.2⟩, unsigned_append (Starts.expr o) hunsigned⟩
  | .call _ c args, h => by
    simp only [Expr.fits, Expr.calleeSlot, Bool.and_eq_true] at h ⊢
    rw [Expr.kinds_call, append_assoc]
    cases hc : c.isArrow with
    | true =>
      rw [hc] at h
      exact ⟨⟨⟨rfl, h.1.2⟩, h.2⟩, rfl⟩
    | false =>
      rw [hc] at h
      obtain ⟨hcallee, hunsigned⟩ := Expr.of_fits_start h.1.2
      exact ⟨⟨⟨rfl, hcallee⟩, h.2⟩, unsigned_append (Starts.expr c) hunsigned⟩
  | .create _ c args, h => ⟨h, by rw [Expr.kinds_create]; rfl⟩
  | .array _ es, h => ⟨h, by rw [Expr.kinds_array]; rfl⟩
  | .object _ ps, h => ⟨h, by rw [Expr.kinds_object]; rfl⟩
  | .arrow _ ps b, h => by simp [Expr.fits] at h
  | .binary _ op l r, h => by simp [Expr.fits, Slot.takesBinary] at h
  | .unary _ op x, h => by simp [Expr.fits, Slot.takesUnary] at h
  | .assign _ t v, h => by simp [Expr.fits] at h

/-- Where the condition holds, the rule reads the expression in front of what ends it. -/
def Expr.ReadsIf (P : Prop) (ends : TokenKind → Bool) (rule : Grammar → Parse Expr) (e : Expr) :
    Prop :=
  P → ∀ n k, e.kinds.length ≤ n → ends k = true → Reads (rule (grammar n)) e.kinds k e.Same

theorem Expr.ReadsIf.operators {P : Prop} (h : e.ReadsIf P endsCall Snippet.unary) :
    e.ReadsIf P endsOperators fun self => Snippet.binary (Snippet.unary self) operatorLevels :=
  fun hP n k hn hk => .binary_operand (h hP n k hn (endsCall_of_endsOperators hk))
    (not_mem_levelMarks hk)

theorem Expr.ReadsIf.whole {P : Prop} (harrow : e.isArrow = false)
    (h : e.ReadsIf P endsOperators fun self => Snippet.binary (Snippet.unary self) operatorLevels)
    (hP : e.fits .whole = true → P) : e.ReadsIf (e.fits .whole = true) endsExpr expression :=
  fun hfits n k hn hk => .expression_of_binary (e.unarrowed hfits harrow) hk
    (h (hP hfits) n k hn (endsOperators_of_endsExpr hk))

/-- The slots of a chain follow from one another. -/
theorem Expr.Rereads.of_chain (hchain : e.isChain = true)
    (created : e.fits .created = true → ∀ n, e.kinds.length ≤ n →
      LeadsTo (Snippet.callee (grammar n)) membersLoop e.kinds e.Same)
    (callee : e.fits .callee = true → ∀ n, e.kinds.length ≤ n →
      LeadsTo (Snippet.call (grammar n)) (suffixesLoop (grammar n)) e.kinds
        e.Same) : e.Rereads := by
  have hoperand : e.ReadsIf (e.fits .start = true) endsCall Snippet.unary := by
    intro hfits n k hn hk
    obtain ⟨hcallee, hunsigned⟩ := Expr.of_fits_start hfits
    exact .unary_of_call (Starts.expr e) hunsigned ((callee hcallee n hn).reads hk)
  have harrow : e.isArrow = false := by
    cases e with
    | arrow loc ps b => cases hchain
    | _ => rfl
  exact ⟨created, callee, fun h => hoperand (fits_start_of_chain hchain (by decide) h),
    fun h => hoperand.operators (fits_start_of_chain hchain (by decide) h),
    hoperand.operators.whole harrow (fits_start_of_chain hchain (by decide))⟩

/-- What stands for itself. -/
theorem Expr.Rereads.of_primary (hchain : e.isChain = true)
    (hnew : e.fits .callee = true → e.kinds.head? ≠ some (.word "new"))
    (h : (e.fits .created = true ∨ e.fits .callee = true) → ∀ n k, e.kinds.length ≤ n →
      Reads (primary (grammar n)) e.kinds k e.Same) : e.Rereads :=
  .of_chain hchain (fun hfits n hn => .of_first (fun _ => rfl) fun k => h (.inl hfits) n k hn)
    fun hfits n hn => .of_primary (Starts.expr e) (hnew hfits) fun k =>
      h (.inr hfits) n k hn

namespace Expr.Rereads

theorem literal (loc : Location) (v : Literal) : (Expr.literal loc v).Rereads := by
  refine .of_primary rfl (fun _ => ?_) fun hfits n k _ => ?_
  · rw [Expr.kinds_literal]
    unfold Literal.kinds Literal.chunks
    split <;> simp [kindsOf, Chunk.kind?, Chunk.word, Chunk.quoted, Chunk.mark, Chunk.number]
    split <;> simp
  · have hplain : v.isPlain = true := by
      rcases hfits with h | h <;> exact h
    rw [Expr.kinds_literal]
    cases v with
    | number x =>
      cases x with
      | finite negative m q =>
        cases negative with
        | true => cases hplain
        | false => exact .primary_number _ loc
      | _ => exact .primary_number _ loc
    | bool b => cases b <;> exact .primary_word _
    | null => exact .primary_word _
    | text s =>
      rw [Literal.kinds, Literal.chunks, kindsOf_quoted, Text.reread_of_isPlain hplain]
      exact .primary_quoted s loc
    | list items => cases hplain

theorem name (loc : Location) (w : String) : (Expr.name loc w).Rereads := by
  have hword : ∀ slot : Slot, slot.takesName w = true → wordExpr .nowhere w = .name .nowhere w := by
    intro slot h
    simp only [Slot.takesName, Bool.and_eq_true, decide_eq_true_eq, mem_cons,
      not_mem_nil, not_or, or_false] at h
    unfold wordExpr
    split
    all_goals first | rfl | simp_all
  refine .of_primary rfl (fun h => ?_) fun h n k _ => ?_
  · simp only [Expr.fits, Slot.takesName, Bool.and_eq_true, bne_iff_ne] at h
    simp [h.2]
  · have hname : wordExpr .nowhere w = .name .nowhere w := by
      rcases h with h | h <;> exact hword _ h
    rw [Expr.kinds_name]
    show Reads _ _ _ fun e : Expr => e.bare = .name .nowhere w
    rw [← hname]
    exact .primary_word w

theorem self (loc : Location) : (Expr.self loc).Rereads := by
  refine .of_primary rfl (fun _ => by simp) fun _ n k _ => ?_
  rw [Expr.kinds_self]
  exact .primary_word "this"

theorem parent (loc : Location) : (Expr.parent loc).Rereads := by
  refine .of_primary rfl (fun _ => by simp) fun _ n k _ => ?_
  rw [Expr.kinds_parent]
  exact .primary_word "super"

theorem array (loc : Location) {es : List Expr} (h : ∀ e ∈ es, e.Rereads) :
    (Expr.array loc es).Rereads := by
  refine .of_primary rfl (fun _ => by simp) fun hfits n k hn => ?_
  have hall : Expr.fitsAll es = true := by
    rcases hfits with hfits | hfits <;> exact hfits
  refine .primary_array loc (items h hall ?_ rfl)
  simp only [Expr.kinds_array, length_append, length_cons] at hn
  omega

theorem object (loc : Location) {ps : List Property} (h : ∀ p ∈ ps, p.Rereads) :
    (Expr.object loc ps).Rereads := by
  refine .of_primary rfl (fun _ => by simp) fun hfits n k hn => ?_
  have hall : Property.fitsAll ps = true := by
    rcases hfits with hfits | hfits <;> exact hfits
  refine .primary_object loc fun p hp mark hmark => ?_
  refine h p hp ((Property.fitsAll_iff ps).1 hall p hp) n _ ?_ ?_
  · simp only [Expr.kinds_object, length_append, length_cons] at hn
    have hlength : (separated .comma (ps.map Property.kinds)).length < n := by omega
    exact Nat.le_of_lt (length_lt_of_mem hp hlength)
  · fin_cases hmark <;> rfl

theorem member (loc : Location) {o : Expr} (p : String) (h : o.Rereads) :
    (Expr.member loc o p).Rereads := by
  have hlength : ∀ {n}, (Expr.member loc o p).kinds.length ≤ n → o.kinds.length ≤ n := by
    intro n hn
    rw [Expr.kinds_member, length_append] at hn
    omega
  refine .of_chain rfl (fun hfits n hn => ?_) fun hfits n hn => ?_
  · rw [Expr.kinds_member]
    exact .created_member loc p (h.created hfits n (hlength hn))
  · rw [Expr.kinds_member]
    exact .member loc p (h.callee hfits n (hlength hn))

theorem index (loc : Location) {o i : Expr} (ho : o.Rereads) (hi : i.Rereads) :
    (Expr.index loc o i).Rereads := by
  refine .of_chain rfl (fun hfits => ?_) fun hfits n hn => ?_
  · simp [Expr.fits, Slot.takesCalls] at hfits
  · simp only [Expr.fits, Bool.and_eq_true] at hfits
    simp only [Expr.kinds_index, length_append, length_cons] at hn
    rw [Expr.kinds_index]
    exact .index loc (ho.callee hfits.1.2 n (by omega)) (hi.inner hfits.2 (by omega) rfl)

theorem call (loc : Location) {c : Expr} {args : List Expr} (hc : c.Rereads)
    (hargs : ∀ e ∈ args, e.Rereads) : (Expr.call loc c args).Rereads := by
  refine .of_chain rfl (fun hfits => ?_) fun hfits n hn => ?_
  · simp [Expr.fits, Slot.takesCalls] at hfits
  · simp only [Expr.fits, Expr.calleeSlot, Bool.and_eq_true] at hfits
    simp only [Expr.kinds_call, length_append, length_cons] at hn
    rw [Expr.kinds_call]
    refine .call loc ?_ (items hargs hfits.2 (by omega) rfl)
    cases harrow : c.isArrow with
    | true =>
      rw [harrow] at hfits hn
      refine .group (hc.inner hfits.1.2 ?_ rfl)
      simp only [groupedKinds, if_true, length_append, length_cons] at hn
      omega
    | false =>
      rw [harrow] at hfits hn
      exact hc.callee hfits.1.2 n (Nat.le_trans (Nat.le_add_right ..)
        (Nat.le_trans (Nat.le_add_right ..) hn))

theorem create (loc : Location) {c : Expr} {args : List Expr} (hc : c.Rereads)
    (hargs : ∀ e ∈ args, e.Rereads) : (Expr.create loc c args).Rereads := by
  refine .of_chain rfl (fun hfits => ?_) fun hfits n hn => ?_
  · simp [Expr.fits, Slot.takesCalls] at hfits
  · simp only [Expr.fits, Bool.and_eq_true] at hfits
    simp only [Expr.kinds_create, length_append, length_cons] at hn
    rw [Expr.kinds_create]
    exact .create loc (hc.created hfits.1.2 n (by omega))
      (items hargs hfits.2 (by omega) rfl)

/-- An operand, in parentheses if it is compound. -/
theorem operand_grouped (h : e.Rereads) (hfits : e.fits e.operandSlot = true) {n : Nat}
    (hn : (groupedKinds e.isCompound e.kinds).length ≤ n) {k : TokenKind} (hk : endsCall k = true) :
    Reads (Snippet.unary (grammar n)) (groupedKinds e.isCompound e.kinds) k e.Same := by
  unfold Expr.operandSlot at hfits
  cases hcompound : e.isCompound with
  | true =>
    rw [hcompound] at hfits hn
    refine .unary_group (h.inner hfits ?_ rfl) hk
    simp only [groupedKinds, if_true, length_append, length_cons] at hn
    omega
  | false =>
    rw [hcompound] at hfits hn
    exact h.operand hfits n k hn hk

theorem unary (loc : Location) (op : UnaryOp) {x : Expr} (h : x.Rereads) :
    (Expr.unary loc op x).Rereads := by
  have hoperand : (Expr.unary loc op x).ReadsIf (x.fits x.operandSlot = true) endsCall
      Snippet.unary := by
    intro hfits n k hn hk
    rw [Expr.kinds_unary] at hn ⊢
    rw [length_cons] at hn
    obtain ⟨n, rfl⟩ : ∃ m, n = m + 1 := ⟨n - 1, by omega⟩
    exact .unary_operator op loc (operand_grouped h hfits (by omega) hk)
  refine ⟨fun h => ?_, fun h => ?_, fun h => ?_, fun h => ?_,
    hoperand.operators.whole rfl fun h => ?_⟩
  · simp [Expr.fits, Slot.takesUnary] at h
  · simp [Expr.fits, Slot.takesUnary] at h
  all_goals simp only [Expr.fits, Bool.and_eq_true] at h
  · exact hoperand h.2
  · exact hoperand.operators h.2
  · exact h.2

theorem binary (loc : Location) (op : BinaryOp) {l r : Expr} (hl : l.Rereads) (hr : r.Rereads) :
    (Expr.binary loc op l r).Rereads := by
  have hoperators : (Expr.binary loc op l r).ReadsIf
      (l.fits l.operandSlot = true ∧ r.fits r.operandSlot = true) endsOperators
      fun self => Snippet.binary (Snippet.unary self) operatorLevels := by
    rintro ⟨hfl, hfr⟩ n k hn hk
    rw [Expr.kinds_binary] at hn ⊢
    rw [length_append, length_append] at hn
    rw [append_assoc]
    refine .binary_operator (locates_operatorLevels op) (Starts.expr r).grouped
      (not_mem_levelMarks hk) (operand_grouped hl hfl (by omega) ?_)
      (operand_grouped hr hfr (by omega) (endsCall_of_endsOperators hk)) loc
    cases op <;> rfl
  refine ⟨fun h => ?_, fun h => ?_, fun h => ?_, fun h => ?_, hoperators.whole rfl fun h => ?_⟩
  · simp [Expr.fits, Slot.takesBinary] at h
  · simp [Expr.fits, Slot.takesBinary] at h
  · simp [Expr.fits, Slot.takesBinary] at h
  all_goals simp only [Expr.fits, Bool.and_eq_true] at h
  · exact hoperators ⟨h.1.2, h.2⟩
  · exact ⟨h.1.2, h.2⟩

/-- What stands only where every expression can. -/
theorem of_whole (honly : ∀ slot : Slot, slot ≠ .whole → e.fits slot = false)
    (h : e.fits .whole = true → ∀ n k, e.kinds.length ≤ n → endsExpr k = true →
      Reads (expression (grammar n)) e.kinds k e.Same) : e.Rereads := by
  have hno : ∀ slot : Slot, slot ≠ .whole → ¬ e.fits slot = true := by
    intro slot hslot hfits
    rw [honly slot hslot] at hfits
    cases hfits
  exact ⟨fun hfits => absurd hfits (hno .created nofun),
    fun hfits => absurd hfits (hno .callee nofun), fun hfits => absurd hfits (hno .operand nofun),
    fun hfits => absurd hfits (hno .operators nofun), h⟩

theorem assign (loc : Location) {t v : Expr} (ht : t.Rereads) (hv : v.Rereads) :
    (Expr.assign loc t v).Rereads := by
  refine .of_whole (fun slot hslot => by simp [Expr.fits, hslot]) fun hfits n k hn hk => ?_
  have hunarrowed := Expr.unarrowed _ hfits rfl
  simp only [Expr.fits, Bool.and_eq_true] at hfits
  rw [Expr.kinds_assign] at hunarrowed hn ⊢
  rw [length_append, length_cons] at hn
  refine .expression_of_assignment hunarrowed ?_ ?_
  · rintro rfl
    cases hk
  · exact .assignment_assign loc hfits.1.1.2 (ht.operators hfits.1.2 n _ (by omega) rfl)
      (hv.inner hfits.2 (by omega) hk)

theorem arrow (loc : Location) {b : ArrowBody} (hps : ∀ p ∈ ps, p.Rereads) (hb : b.Rereads) :
    (Expr.arrow loc ps b).Rereads := by
  refine .of_whole (fun slot hslot => by simp [Expr.fits, hslot]) fun hfits n k hn hk => ?_
  simp only [Expr.fits, Bool.and_eq_true] at hfits
  simp only [Expr.kinds_arrow, length_append, length_cons] at hn
  exact .expression_arrow loc (Param.Rereads.items hps hfits.1.2 (by omega))
    (hb hfits.2 n k (by omega) hk)

end Expr.Rereads

/-! ## Types -/

section Ends

variable {last : Bool} {k : TokenKind}

theorem TypeSlot.not_mem_stops (h : slot.ends last k = true) : k ∉ slot.stops :=
  of_decide_eq_true (Bool.and_eq_true_iff.1 h).1

theorem TypeSlot.not_mem_of_ends {ks : List TokenKind} (hks : ks ⊆ slot.stops)
    (h : slot.ends last k = true) : k ∉ ks :=
  fun hk => TypeSlot.not_mem_stops h (hks hk)

theorem TypeSlot.ends_of_subset {slot' : TypeSlot} (hslot : slot'.stops ⊆ slot.stops)
    (h : slot.ends last k = true) : slot'.ends last k = true := by
  rw [TypeSlot.ends, Bool.and_eq_true, decide_eq_true_iff] at h ⊢
  exact ⟨fun hk => h.1 (hslot hk), h.2⟩

theorem TypeSlot.ne_of_ends (h : slot.ends last k = true) {x : TokenKind} (hx : x ∈ slot.stops) :
    k ≠ x := by
  rintro rfl
  exact TypeSlot.not_mem_stops h hx

/-- What ends a type ends all that could take it in, where nothing follows the slot. -/
theorem TypeSlot.whole_ends_of_last (h : slot.ends true k = true) :
    TypeSlot.whole.ends true k = true := by
  rw [TypeSlot.ends, Bool.and_eq_true, Bool.not_true, Bool.false_or] at h ⊢
  exact ⟨h.2, h.2⟩

end Ends

namespace TypeExpr.Rereads

variable {t : TypeExpr}

/-- Where the type fits one slot, the rule reads it in front of what ends another. -/
def ReadsAs (t : TypeExpr) (fit slot : TypeSlot) (rule : Grammar → Parse TypeExpr) : Prop :=
  ∀ last, t.fits fit last = true → ∀ n k, t.kinds.length ≤ n → slot.ends last k = true →
    Reads (rule (grammar n)) t.kinds k t.Same

namespace ReadsAs

variable {fit : TypeSlot} {rule : Grammar → Parse TypeExpr}

theorem none (h : ∀ last, t.fits fit last = false) : ReadsAs t fit slot rule := by
  intro last hfits
  rw [h last] at hfits
  cases hfits

theorem of_fits {fit' : TypeSlot} (h : ReadsAs t fit slot rule)
    (hfits : ∀ last, t.fits fit' last = true → t.fits fit last = true) :
    ReadsAs t fit' slot rule :=
  fun last hf => h last (hfits last hf)

theorem member (h : ReadsAs t fit .part arrayType) : ReadsAs t fit .member intersectionType :=
  fun last hf n k hn hk => .intersectionType_of_arrayType (TypeSlot.ne_of_ends hk (by decide))
    (h last hf n k hn (TypeSlot.ends_of_subset (by decide) hk))

theorem union (h : ReadsAs t fit .member intersectionType) : ReadsAs t fit .union unionType :=
  fun last hf n k hn hk => .unionType_of_intersectionType (Starts.type t hf)
    (TypeSlot.ne_of_ends hk (by decide)) (h last hf n k hn (TypeSlot.ends_of_subset (by decide) hk))

theorem whole (h : ReadsAs t fit .union unionType) : ReadsAs t fit .whole type :=
  fun last hf n k hn hk => .type_of_unionType (TypeSlot.ne_of_ends hk (by decide))
    (h last hf n k hn (TypeSlot.ends_of_subset (by decide) hk))

end ReadsAs

/-- A type that the tightest slot does not take. -/
theorem of_slots (helement : ∀ last, t.fits .element last = false)
    (part : ReadsAs t .part .part arrayType) (member : ReadsAs t .member .member intersectionType)
    (union : ReadsAs t .union .union unionType) (whole : ReadsAs t .whole .whole type) :
    t.Rereads := by
  refine ⟨fun last hfits => ?_, part, member, union, whole⟩
  rw [helement last] at hfits
  cases hfits

/-- A type that every slot but perhaps the tightest takes. -/
theorem of_part
    (element : ∀ last, t.fits .element last = true → ∀ n, t.kinds.length ≤ n →
      LeadsToArrays (grammar n) t.kinds t.Same)
    (hfits : ∀ slot last, slot ≠ .element → t.fits slot last = true → t.fits .part last = true)
    (part : ReadsAs t .part .part arrayType) : t.Rereads :=
  have hpart : ∀ slot, slot ≠ .element → ReadsAs t slot .part arrayType :=
    fun slot hslot => part.of_fits fun last => hfits slot last hslot
  ⟨element, part, (hpart .member (by decide)).member, (hpart .union (by decide)).member.union,
    (hpart .whole (by decide)).member.union.whole⟩

/-- A type that every slot takes. -/
theorem of_element
    (hfits : ∀ slot last slot' last', t.fits slot last = true → t.fits slot' last' = true)
    (element : ∀ last, t.fits .element last = true → ∀ n, t.kinds.length ≤ n →
      LeadsToArrays (grammar n) t.kinds t.Same) : t.Rereads := by
  refine of_part element (fun slot last _ => hfits slot last .part last) fun last h n k hn hk => ?_
  exact (element last (hfits _ _ .element last h) n hn).reads
    (TypeSlot.not_mem_of_ends (by decide) hk)

/-- A type that stands for itself and takes in no more than a name does. -/
theorem of_primaryType
    (hfits : ∀ slot last slot' last', t.fits slot last = true → t.fits slot' last' = true)
    (h : ∀ slot last, t.fits slot last = true → ∀ n k, t.kinds.length ≤ n →
      k ∉ [TokenKind.punct .dot, .punct .less, .punct .arrow] →
      Reads (primaryType (grammar n)) t.kinds k t.Same) : t.Rereads :=
  of_element hfits fun last hf n hn =>
    LeadsToArrays.of_primaryType fun k hk => h _ last hf n k hn hk

theorem reference (loc : Location) (name : String) {args : List TypeExpr}
    (h : ∀ t ∈ args, t.Rereads) : (TypeExpr.reference loc name args).Rereads := by
  refine of_primaryType (fun _ _ _ _ h => h) fun slot last hfits n k hn hk => ?_
  simp only [TypeExpr.fits, Bool.and_eq_true] at hfits
  refine .primaryType_reference loc hfits.1 ?_ ?_
  · intro hmem
    exact hk (by simp only [mem_cons, not_mem_nil, or_false] at hmem ⊢; tauto)
  · cases args with
    | nil => simp
    | cons a as =>
      simp only [TypeExpr.kinds_reference_cons, length_append, length_cons] at hn
      exact items h hfits.2 (by omega) rfl

theorem literal (loc : Location) (v : Literal) : (TypeExpr.literal loc v).Rereads := by
  refine of_primaryType (fun _ _ _ _ h => h) fun slot last hfits n k _ _ => ?_
  rw [TypeExpr.kinds_literal]
  exact .primaryType_literal loc hfits

theorem tuple (loc : Location) {ts : List TypeExpr} (h : ∀ t ∈ ts, t.Rereads) :
    (TypeExpr.tuple loc ts).Rereads := by
  refine of_primaryType (fun _ _ _ _ h => h) fun slot last hfits n k hn _ => ?_
  simp only [TypeExpr.kinds_tuple, length_append, length_cons] at hn
  refine .primaryType_tuple loc (fun t ht => ?_) (items h hfits (by omega) rfl)
  exact Starts.type t ((TypeExpr.fitsAll_iff ts).1 hfits t ht)

theorem object (loc : Location) {ps : List PropertyType} (h : ∀ p ∈ ps, p.Rereads) :
    (TypeExpr.object loc ps).Rereads := by
  refine of_primaryType (fun _ _ _ _ h => h) fun slot last hfits n k hn _ => ?_
  simp only [TypeExpr.kinds_object, length_append, length_cons] at hn
  have hlength : (separated .semicolon (ps.map PropertyType.kinds)).length < n := by omega
  exact .primaryType_object loc fun p hp mark hmark =>
    h p hp ((PropertyType.fitsAll_iff ps).1 hfits p hp) n
      (Nat.le_of_lt (length_lt_of_mem hp hlength)) mark hmark

theorem array (loc : Location) (h : t.Rereads) : (TypeExpr.array loc t).Rereads := by
  refine of_element (fun _ _ _ _ h => h) fun last hfits n hn => ?_
  rw [TypeExpr.fits] at hfits
  rw [TypeExpr.kinds_array] at hn ⊢
  refine .array loc ?_
  cases hcompound : t.isCompound with
  | true =>
    rw [hcompound] at hfits hn
    refine .of_primaryType fun k hk => ?_
    refine .primaryType_group (Brackets.followed_parens.type t) ?_ (h.inner hfits ?_ rfl)
    · rintro rfl
      exact hk (by decide)
    · simp only [groupedKinds, if_true, length_append, length_cons] at hn
      omega
  | false =>
    rw [hcompound] at hfits hn
    rw [length_append] at hn
    exact h.element true hfits n (Nat.le_trans (Nat.le_add_right ..) hn)

theorem query (loc : Location) (h : e.Rereads) : (TypeExpr.query loc e).Rereads := by
  refine of_part (fun last hfits => ?_) (fun slot last hslot hfits => ?_)
    fun last hfits n k hn hk => ?_
  · simp [TypeExpr.fits] at hfits
  · simp only [TypeExpr.fits, Bool.and_eq_true] at hfits ⊢
    exact ⟨rfl, hfits.2⟩
  · simp only [TypeExpr.fits, Bool.and_eq_true] at hfits
    simp only [TypeExpr.kinds_query, length_cons] at hn
    refine .arrayType_of_primaryType (TypeSlot.ne_of_ends hk (by decide)) ?_
    refine .primaryType_query loc ((h.callee hfits.2 n (by omega)).reads ?_)
    exact decide_eq_true (TypeSlot.not_mem_of_ends (by decide) hk)

theorem function (loc : Location) {r : Option TypeExpr} (hps : ∀ p ∈ ps, p.Rereads)
    (hr : ∀ t ∈ r, t.Rereads) :
    (TypeExpr.function loc ps r).Rereads := by
  refine of_part (fun last hfits => ?_) (fun slot last hslot hfits => ?_)
    fun last hfits n k hn hk => ?_
  · simp [TypeExpr.fits] at hfits
  · simp only [TypeExpr.fits, Bool.and_eq_true] at hfits ⊢
    exact ⟨⟨⟨⟨rfl, hfits.1.1.1.2⟩, hfits.1.1.2⟩, hfits.1.2⟩, hfits.2⟩
  · simp only [TypeExpr.fits, Bool.and_eq_true] at hfits
    cases r with
    | none => simp at hfits
    | some r =>
      rw [hfits.1.1.1.2] at hk
      simp only [TypeExpr.kinds_function_some, length_append, length_cons] at hn
      refine .arrayType_of_primaryType (TypeSlot.ne_of_ends hk (by decide)) ?_
      exact .primaryType_function loc (Param.Rereads.items hps hfits.1.1.2 (by omega))
        ((hr r rfl).inner hfits.2 (by omega) (TypeSlot.whole_ends_of_last hk))

/-- The last member is followed by what follows the whole, the others by an operator. -/
theorem fitsMembers_iff {last : Bool} :
    TypeExpr.fitsMembers slot last ms = true ↔
      (∀ t ∈ ms.dropLast, t.fits slot false = true) ∧
        ∀ t ∈ ms.getLast?, t.fits slot last = true := by
  induction ms with
  | nil => simp [TypeExpr.fitsMembers]
  | cons t ts ih =>
    cases ts with
    | nil => simp [TypeExpr.fitsMembers]
    | cons u ts =>
      rw [TypeExpr.fitsMembers, Bool.and_eq_true, ih, dropLast_cons_cons,
        forall_mem_cons, and_assoc]
      rfl

/-- The members of a compound type are read back between its marks. -/
theorem members {rule : Grammar → Parse TypeExpr} {sep : Punct} {last : Bool} {n : Nat}
    {k : TokenKind} (h : ∀ t ∈ ms, ReadsAs t slot slot rule)
    (hfits : TypeExpr.fitsMembers slot last ms = true)
    (hn : (separated sep (ms.map TypeExpr.kinds)).length ≤ n)
    (hsep : slot.ends false (.punct sep) = true) (hk : slot.ends last k = true) :
    (∀ t ∈ ms.dropLast, Reads (rule (grammar n)) t.kinds (.punct sep) t.Same) ∧
      ∀ t ∈ ms.getLast?, Reads (rule (grammar n)) t.kinds k t.Same := by
  obtain ⟨hitems, hlast⟩ := fitsMembers_iff.1 hfits
  have hlength : ∀ t ∈ ms, t.kinds.length ≤ n := fun t ht =>
    Nat.le_trans (length_le_separated (mem_map_of_mem ht)) hn
  refine ⟨fun t ht => ?_, fun t ht => ?_⟩
  · have hmem := mem_of_mem_dropLast ht
    exact h t hmem false (hitems t ht) n _ (hlength t hmem) hsep
  · have hmem := mem_of_getLast? ht
    exact h t hmem last (hlast t ht) n k (hlength t hmem) hk

theorem intersection (loc : Location) (h : ∀ t ∈ ms, t.Rereads) :
    (TypeExpr.intersection loc ms).Rereads := by
  have hmember : ReadsAs (.intersection loc ms) .member .member intersectionType := by
    intro last hfits n k hn hk
    simp only [TypeExpr.fits, Bool.and_eq_true, decide_eq_true_iff] at hfits
    rw [TypeExpr.kinds_intersection] at hn
    obtain ⟨hitems, hlast⟩ := members (fun t ht => (h t ht).part) hfits.2 hn rfl
      (TypeSlot.ends_of_subset (by decide) hk)
    exact .intersectionType loc hfits.1.2 (TypeSlot.ne_of_ends hk (by decide)) hitems hlast
  have hfits : ∀ slot last, (TypeExpr.intersection loc ms).fits slot last = true →
      (TypeExpr.intersection loc ms).fits .member last = true := by
    intro slot last h
    simp only [TypeExpr.fits, Bool.and_eq_true] at h ⊢
    exact ⟨⟨rfl, h.1.2⟩, h.2⟩
  exact of_slots (fun last => by simp [TypeExpr.fits, TypeSlot.takesIntersections])
    (.none fun last => by simp [TypeExpr.fits, TypeSlot.takesIntersections]) hmember
    (hmember.of_fits (hfits .union)).union (hmember.of_fits (hfits .whole)).union.whole

theorem ofUnion (loc : Location) (h : ∀ t ∈ ms, t.Rereads) : (TypeExpr.union loc ms).Rereads := by
  have hunion : ReadsAs (.union loc ms) .union .union unionType := by
    intro last hfits n k hn hk
    have hstarts := Starts.type _ hfits
    simp only [TypeExpr.fits, Bool.and_eq_true, decide_eq_true_iff] at hfits
    rw [TypeExpr.kinds_union] at hn
    obtain ⟨hitems, hlast⟩ := members (fun t ht => (h t ht).member) hfits.2 hn rfl
      (TypeSlot.ends_of_subset (by decide) hk)
    exact .unionType loc hfits.1.2 hstarts (TypeSlot.ne_of_ends hk (by decide)) hitems hlast
  have hnot : ∀ slot last, slot ∈ [TypeSlot.element, .part, .member] →
      (TypeExpr.union loc ms).fits slot last = false := by
    intro slot last hslot
    fin_cases hslot <;> simp [TypeExpr.fits, TypeSlot.takesUnions]
  refine of_slots (fun last => hnot _ last (by decide)) (.none fun last => hnot _ last (by decide))
    (.none fun last => hnot _ last (by decide)) hunion (hunion.of_fits fun last hfits => ?_).whole
  simp only [TypeExpr.fits, Bool.and_eq_true] at hfits ⊢
  exact ⟨⟨rfl, hfits.1.2⟩, hfits.2⟩

theorem conditional (loc : Location) {a b c d : TypeExpr} (ha : a.Rereads) (hb : b.Rereads)
    (hc : c.Rereads) (hd : d.Rereads) : (TypeExpr.conditional loc a b c d).Rereads := by
  have hno : ∀ slot last, slot ≠ .whole →
      (TypeExpr.conditional loc a b c d).fits slot last = false := by
    intro slot last hslot
    simp [TypeExpr.fits, hslot]
  refine of_slots (fun last => hno _ last (by decide)) (.none fun last => hno _ last (by decide))
    (.none fun last => hno _ last (by decide)) (.none fun last => hno _ last (by decide))
    fun last hfits n k hn hk => ?_
  simp only [TypeExpr.fits, Bool.and_eq_true] at hfits
  simp only [TypeExpr.kinds_conditional, length_append, length_cons] at hn
  refine .conditional loc (ha.union false hfits.1.1.1.2 n _ (by omega) rfl)
    (hb.union true hfits.1.1.2 n _ (by omega) rfl) (hc.inner hfits.1.2 (by omega) rfl)
    (hd.inner hfits.2 (by omega) ?_)
  rw [TypeSlot.ends, Bool.and_eq_true] at hk ⊢
  exact ⟨hk.1, by rw [hk.1]; rfl⟩

end TypeExpr.Rereads

/-! ## The parts of trees -/

theorem Property.Rereads.mk (loc : Location) (key : String) {v : Expr} (h : v.Rereads) :
    (Property.mk loc key v).Rereads := by
  intro hfits n k hn hk
  simp only [Property.fits, Bool.and_eq_true] at hfits
  simp only [Property.kinds_mk, length_cons] at hn
  exact .property loc hfits.1 (h.inner hfits.2 (by omega) hk)

theorem ArrowBody.Rereads.value (h : e.Rereads) : (ArrowBody.value e).Rereads := by
  intro hfits n k hn hk
  simp only [ArrowBody.fits, Bool.and_eq_true] at hfits
  rw [ArrowBody.kinds_value] at hn ⊢
  cases hobject : e.isObject with
  | true =>
    rw [hobject] at hn
    simp only [groupedKinds, if_true, length_append, length_cons] at hn
    obtain ⟨n, rfl⟩ : ∃ m, n = m + 1 := ⟨n - 1, by omega⟩
    refine .arrowBody_value (by simp [groupedKinds]) (Starts.cons rfl) ?_
    exact .expression_group (Brackets.followed_parens.expr e)
      (h.inner hfits.1 (by omega) rfl) hk
  | false =>
    rw [hobject] at hn
    rw [Expr.startsResult, hobject, Bool.false_or, decide_eq_true_iff] at hfits
    exact .arrowBody_value hfits.2 (Starts.expr e) (h.inner hfits.1 hn hk)

/-- The statements of a block are read back. -/
theorem Stmt.Rereads.items (h : ∀ s ∈ ss, s.Rereads) (hfits : Stmt.fitsAll ss = true) {n : Nat}
    (hn : (ss.flatMap Stmt.kinds).length < n) :
    ∀ s ∈ ss, ∀ k, k ≠ .punct .semicolon →
      Reads (grammar n).statement s.kinds k s.Same := by
  intro s hs k hk
  refine (h s hs).inner ((Stmt.fitsAll_iff ss).1 hfits s hs) (Nat.lt_of_le_of_lt ?_ hn) hk
  rw [flatMap_def]
  exact (sublist_flatten_of_mem (mem_map_of_mem hs)).length_le

theorem ArrowBody.Rereads.block (h : ∀ s ∈ ss, s.Rereads) : (ArrowBody.block ss).Rereads := by
  intro hfits n k hn _
  simp only [ArrowBody.kinds_block, length_append, length_cons] at hn
  exact .arrowBody_block (Stmt.Rereads.items h hfits (by omega))

namespace Stmt.Rereads

variable (loc : Location)

theorem run (h : e.Rereads) : (Stmt.run loc e).Rereads := by
  intro hfits n k hn hk
  simp only [Stmt.fits, Bool.and_eq_true] at hfits
  rw [Stmt.kinds_eq, length_append] at hn
  refine .statement hk (.bareStatement_run loc hfits.2 ?_)
  exact h.whole hfits.1 n _ (Nat.le_trans (Nat.le_add_right ..) hn) rfl

theorem bind (kind : BindingKind) (b : Binding) {t : Option TypeExpr} {v : Option Expr}
    (ht : ∀ u ∈ t, u.Rereads) (hv : ∀ e ∈ v, e.Rereads) :
    (Stmt.bind loc kind b t v).Rereads := by
  intro hfits n k hn hk
  simp only [Stmt.fits, Bool.and_eq_true] at hfits
  simp only [Stmt.kinds_eq, Stmt.core, length_append, length_cons] at hn
  refine .statement hk (.bareStatement_bind loc kind ?_ ?_)
  · rintro u rfl p hp
    simp only [TypeExpr.suffixKinds, length_cons] at hn
    refine (ht u rfl).inner hfits.1 (by omega) ?_
    fin_cases hp <;> rfl
  · rintro e rfl
    simp only [Expr.initKinds, length_cons] at hn
    exact (hv e rfl).inner hfits.2 (by omega) rfl

theorem yield {v : Option Expr} (hv : ∀ e ∈ v, e.Rereads) : (Stmt.yield loc v).Rereads := by
  intro hfits n k hn hk
  refine .statement hk (.bareStatement_yield loc ?_)
  rintro e rfl
  simp only [Stmt.kinds_eq, Stmt.core, length_append, length_cons] at hn
  exact (hv e rfl).inner hfits (by omega) rfl

theorem block (h : ∀ s ∈ ss, s.Rereads) : (Stmt.block loc ss).Rereads := by
  intro hfits n k hn hk
  simp only [Stmt.kinds_eq, Stmt.core, length_append, length_cons] at hn
  exact .statement hk (.bareStatement_block loc (items h hfits (by omega)))

end Stmt.Rereads

theorem PropertyType.Rereads.mk (name : String) (optional : Bool) {t : TypeExpr} (h : t.Rereads) :
    (PropertyType.mk name optional t).Rereads := by
  intro hfits n hn mark hmark
  simp only [PropertyType.fits, Bool.and_eq_true] at hfits
  simp only [PropertyType.kinds_mk, length_append, length_cons] at hn
  refine .propertySignature hfits.1 (h.inner hfits.2 (by omega) ?_)
  fin_cases hmark <;> rfl

theorem Param.Rereads.mk (loc : Location) (m : Option Modifier) (w : String) (optional : Bool)
    {t : Option TypeExpr} (h : ∀ u ∈ t, u.Rereads) : (Param.mk loc m w optional t).Rereads := by
  intro hfits n hn mark hmark
  rw [Param.fits] at hfits
  simp only [Param.kinds_mk, length_append, length_cons] at hn
  refine .param loc ?_ ?_
  · fin_cases hmark <;> simp
  · rintro u rfl
    simp only [TypeExpr.suffixKinds, length_cons] at hn
    refine (h u rfl).inner hfits (by omega) ?_
    fin_cases hmark <;> rfl

/-! ## All trees -/

mutual

/-- Every expression is read back. -/
theorem Expr.rereads : ∀ e : Expr, e.Rereads
  | .literal loc v => .literal loc v
  | .name loc n => .name loc n
  | .self loc => .self loc
  | .parent loc => .parent loc
  | .member loc o p => .member loc p o.rereads
  | .index loc o i => .index loc o.rereads i.rereads
  | .call loc c args => .call loc c.rereads (Expr.rereadsAll args)
  | .create loc c args => .create loc c.rereads (Expr.rereadsAll args)
  | .array loc es => .array loc (Expr.rereadsAll es)
  | .object loc ps => .object loc (Property.rereadsAll ps)
  | .arrow loc ps b => .arrow loc (Param.rereadsAll ps) b.rereads
  | .binary loc op l r => .binary loc op l.rereads r.rereads
  | .unary loc op x => .unary loc op x.rereads
  | .assign loc t v => .assign loc t.rereads v.rereads

theorem Expr.rereadsAll : ∀ es : List Expr, ∀ e ∈ es, e.Rereads
  | [] => nofun
  | e :: es => forall_mem_cons.2 ⟨e.rereads, Expr.rereadsAll es⟩

theorem Expr.rereads? : ∀ v : Option Expr, ∀ e ∈ v, e.Rereads
  | none, _, h => nomatch h
  | some e, f, h => by
    cases h
    exact e.rereads

theorem Property.rereadsAll : ∀ ps : List Property, ∀ p ∈ ps, p.Rereads
  | [] => nofun
  | .mk loc k v :: ps => forall_mem_cons.2 ⟨.mk loc k v.rereads, Property.rereadsAll ps⟩

theorem ArrowBody.rereads : ∀ b : ArrowBody, b.Rereads
  | .value e => .value e.rereads
  | .block ss => .block (Stmt.rereadsAll ss)

theorem Stmt.rereads : ∀ s : Stmt, s.Rereads
  | .run loc e => .run loc e.rereads
  | .bind loc kind b t v => .bind loc kind b (TypeExpr.rereads? t) (Expr.rereads? v)
  | .yield loc v => .yield loc (Expr.rereads? v)
  | .block loc ss => .block loc (Stmt.rereadsAll ss)

theorem Stmt.rereadsAll : ∀ ss : List Stmt, ∀ s ∈ ss, s.Rereads
  | [] => nofun
  | s :: ss => forall_mem_cons.2 ⟨s.rereads, Stmt.rereadsAll ss⟩

/-- Every type is read back. -/
theorem TypeExpr.rereads : ∀ t : TypeExpr, t.Rereads
  | .reference loc n args => .reference loc n (TypeExpr.rereadsAll args)
  | .literal loc v => .literal loc v
  | .union loc ms => .ofUnion loc (TypeExpr.rereadsAll ms)
  | .intersection loc ms => .intersection loc (TypeExpr.rereadsAll ms)
  | .array loc t => .array loc t.rereads
  | .tuple loc ts => .tuple loc (TypeExpr.rereadsAll ts)
  | .object loc ps => .object loc (PropertyType.rereadsAll ps)
  | .query loc e => .query loc e.rereads
  | .function loc ps r => .function loc (Param.rereadsAll ps) (TypeExpr.rereads? r)
  | .conditional loc a b c d => .conditional loc a.rereads b.rereads c.rereads d.rereads

theorem TypeExpr.rereadsAll : ∀ ts : List TypeExpr, ∀ t ∈ ts, t.Rereads
  | [] => nofun
  | t :: ts => forall_mem_cons.2 ⟨t.rereads, TypeExpr.rereadsAll ts⟩

theorem TypeExpr.rereads? : ∀ t : Option TypeExpr, ∀ u ∈ t, u.Rereads
  | none, _, h => nomatch h
  | some t, u, h => by
    cases h
    exact t.rereads

theorem PropertyType.rereadsAll : ∀ ps : List PropertyType, ∀ p ∈ ps, p.Rereads
  | [] => nofun
  | .mk n optional t :: ps =>
    forall_mem_cons.2 ⟨.mk n optional t.rereads, PropertyType.rereadsAll ps⟩

theorem Param.rereadsAll : ∀ ps : List Param, ∀ p ∈ ps, p.Rereads
  | [] => nofun
  | .mk loc m n optional t :: ps =>
    forall_mem_cons.2 ⟨.mk loc m n optional (TypeExpr.rereads? t), Param.rereadsAll ps⟩

end

end Componentry
