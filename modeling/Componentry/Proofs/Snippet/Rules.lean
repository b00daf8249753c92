import Componentry.Proofs.Snippet.Opening
import Componentry.Proofs.Snippet.Proper

/-!
# What the rules of the grammar read

One lemma for each rule, about tokens of known kinds: if the parts of a tree are read back, so is
the tree. A rule that goes on in a loop after its first part is described by what the loop does
afterwards, so that a tree which grows to the left is read by induction on the tree.

`endsCall`, `endsOperators` and `endsExpr` say of the token after an expression that it cannot be
taken for a part of it.
-/

namespace Componentry

open List Snippet TokenKind

attribute [local simp] Expr.Same Expr.bare Expr.bareAll_eq Property.Same Property.bare
  Property.bareAll_eq

variable {level : List (Punct × BinaryOp)} {n : Nat} {args : List Expr}

/-- A plain text is read back as it is. -/
theorem Text.reread_of_isPlain {s : String} (h : isPlain s = true) : reread s = s := by
  have hchars : s.toList.flatMap rereadChar = s.toList := by
    rw [isPlain, all_eq_true] at h
    conv_rhs => rw [← flatMap_singleton' s.toList]
    refine flatMap_congr fun c hc => ?_
    exact if_pos (h c hc)
  rw [reread, hchars, String.ofList_toList]

namespace Snippet

variable {α β : Type} {self : Grammar} {ks ls : List TokenKind} {k : TokenKind}

/-! ## Lists -/

theorem length_le_separated {sep : Punct} {kss : List (List TokenKind)} (h : ks ∈ kss) :
    ks.length ≤ (separated sep kss).length := by
  induction kss with
  | nil => cases h
  | cons ls more ih =>
    cases more with
    | nil =>
      rw [separated_singleton]
      cases mem_singleton.1 h
      exact Nat.le_refl _
    | cons ms more =>
      rw [separated_cons_cons, length_append, length_cons]
      rcases mem_cons.1 h with rfl | h
      · omega
      · have := ih h
        omega

/-- Lists whose members agree without locations agree without them. -/
theorem map_bare_eq {bare : α → β} {xs ys : List α}
    (h : Forall₂ (fun x y => bare y = bare x) xs ys) : ys.map bare = xs.map bare := by
  induction h with
  | nil => rfl
  | cons hxy _ ih => rw [map_cons, map_cons, hxy, ih]

section Items

variable {item : Parse α} {kinds : β → List TokenKind} {good : β → α → Prop} {sep close : Punct}

/-- The items are read one after the other, up to the closing mark. -/
theorem Reads.itemsLoop {seps : List Punct} (hsep : sep ∈ seps) (hclose : close ∉ seps)
    (hdead : (punct close).starts = false) :
    ∀ (xs : List β) (n : Nat), (separated sep (xs.map kinds)).length < n →
      (∀ x ∈ xs, Starts (kinds x)) →
      (∀ x ∈ xs, ∀ p ∈ [sep, close], Reads item (kinds x) (.punct p) (good x)) →
      Reads (itemsLoop seps close item n) (separated sep (xs.map kinds)) (.punct close)
        (Forall₂ good xs)
  | _, 0, hn, _, _ => absurd hn (Nat.not_lt_zero _)
  | [], n + 1, _, _, _ => by
    refine .sees ?_
    rw [map_nil, separated_nil, headD_nil, beq_self_eq_true]
    exact .isDone (.pure .nil)
  | [x], n + 1, _, hstarts, hitem => by
    have hx := hstarts x (mem_cons_self ..)
    rw [map_cons, map_nil, separated_singleton]
    refine .sees_not (hx.head_ne hdead) (.isDone_not (hx.head_ne rfl) ?_)
    rw [← append_nil (kinds x)]
    refine .bind (hitem x (mem_cons_self ..) close (by simp)) fun a ha => ?_
    refine .peek fun t ht => ?_
    have hnone : seps.any t.isPunct = false := by
      rw [any_eq_false]
      intro p hp hpt
      rw [isPunct_iff, ht] at hpt
      cases hpt
      exact hclose hp
    rw [hnone]
    exact .pure (.cons ha .nil)
  | x :: y :: xs, n + 1, hn, hstarts, hitem => by
    have hx := hstarts x (mem_cons_self ..)
    rw [map_cons, map_cons, separated_cons_cons] at hn ⊢
    rw [length_append, length_cons] at hn
    refine .sees_not (hx.append.head_ne hdead) (.isDone_not (hx.append.head_ne rfl) ?_)
    refine .bind (hitem x (mem_cons_self ..) sep (by simp)) fun a ha => ?_
    refine .peek_cons fun t ht => ?_
    have hsome : seps.any t.isPunct = true :=
      any_eq_true.2 ⟨sep, hsep, isPunct_iff.2 ht⟩
    rw [hsome]
    refine .advance nofun fun _ _ => ?_
    refine .map (.itemsLoop hsep hclose hdead (y :: xs) n (by rw [map_cons]; omega)
      (fun z hz => hstarts z (mem_cons_of_mem _ hz))
      fun z hz => hitem z (mem_cons_of_mem _ hz)) fun as has => ?_
    exact .cons ha has

/-- Items up to and including the closing mark. -/
theorem Reads.listed {why : Complaint} {xs : List β} (hclose : close ∉ [Punct.comma])
    (hdead : (punct close).starts = false) (hstarts : ∀ x ∈ xs, Starts (kinds x))
    (hitem : ∀ x ∈ xs, ∀ p ∈ [Punct.comma, close], Reads item (kinds x) (.punct p) (good x)) :
    Reads (listed close why item) (separated .comma (xs.map kinds) ++ [.punct close]) k
      (Forall₂ good xs) := by
  refine .bind (.bounded fun n hn => ?_) fun as has => .expect (.pure has)
  exact .itemsLoop (mem_singleton.2 rfl) hclose hdead xs n hn hstarts hitem

end Items

/-! ## Operators between operands -/

/-- The marks after which an expression goes on: arguments, a member, an element. -/
def endsCall (k : TokenKind) : Bool :=
  k ∉ [punct .lparen, .punct .dot, .punct .lbracket]

/-- The marks of the levels. -/
def levelMarks (levels : List (List (Punct × BinaryOp))) : List TokenKind :=
  levels.flatten.map fun entry => .punct entry.1

/-- No operator follows, and no suffix. -/
def endsOperators (k : TokenKind) : Bool := endsCall k && k ∉ levelMarks operatorLevels

/-- Nothing follows that an expression could take in. -/
def endsExpr (k : TokenKind) : Bool :=
  endsOperators k && k ∉ [punct .assign, .punct .arrow]

theorem endsOperators_of_endsExpr (h : endsExpr k = true) : endsOperators k = true :=
  (Bool.and_eq_true_iff.1 h).1

theorem endsCall_of_endsOperators (h : endsOperators k = true) : endsCall k = true :=
  (Bool.and_eq_true_iff.1 h).1

theorem not_mem_levelMarks (h : endsOperators k = true) : k ∉ levelMarks operatorLevels :=
  of_decide_eq_true (Bool.and_eq_true_iff.1 h).2

theorem not_mem_levelMarks_cons {tighter : List (List (Punct × BinaryOp))}
    (h : k ∉ levelMarks (level :: tighter)) :
    (∀ entry ∈ level, k ≠ .punct entry.1) ∧ k ∉ levelMarks tighter := by
  rw [levelMarks, flatten_cons, map_append, mem_append, not_or] at h
  exact ⟨fun entry hentry heq => h.1 (mem_map.2 ⟨entry, hentry, heq.symm⟩), h.2⟩

section Levels

variable {operand : Parse Expr} {levels : List (List (Punct × BinaryOp))} {P : Expr → Prop}

/-- No operator of the level comes next. -/
theorem Reads.operator?_none {f : Option BinaryOp → Parse β} {Q : β → Prop}
    (h : ∀ entry ∈ level, ks.headD k ≠ .punct entry.1) (hf : Reads (f none) ks k Q) :
    Reads (operator? level >>= f) ks k Q := by
  unfold operator?
  rw [bind_assoc]
  refine .peek fun t ht => ?_
  have hfind : level.find? (fun entry => t.isPunct entry.1) = none := by
    rw [find?_eq_none]
    intro entry hentry hpt
    rw [isPunct_iff, ht] at hpt
    exact h entry hentry hpt
  rw [hfind]
  exact hf

/-- Operands of a level to which nothing is added. -/
theorem Reads.operandsLoop_nil {e : Expr} (he : P e) (h : ∀ entry ∈ level, k ≠ .punct entry.1)
    (hn : 0 < n) : Reads (operandsLoop level operand n e) [] k P := by
  obtain ⟨n, rfl⟩ := Nat.exists_eq_add_one.2 hn
  exact .operator?_none h (.pure he)

/-- An operand alone. -/
theorem Reads.binary_operand (h : Reads operand ks k P) (hk : k ∉ levelMarks levels) :
    Reads (binary operand levels) ks k P := by
  induction levels with
  | nil => exact h
  | cons level tighter ih =>
    obtain ⟨hlevel, htighter⟩ := not_mem_levelMarks_cons hk
    rw [← append_nil ks]
    exact .bind (ih htighter) fun e he => .bounded fun n hn =>
      Reads.operandsLoop_nil he hlevel hn

/-- The mark that an operator begins with, and what it stands for alone. -/
def operatorEntry : BinaryOp → Punct × BinaryOp
  | .or => (.or, .or)
  | .and => (.and, .and)
  | .equal => (.equal, .equal)
  | .unequal => (.unequal, .unequal)
  | .strictEqual => (.strictEqual, .strictEqual)
  | .strictUnequal => (.strictUnequal, .strictUnequal)
  | .less => (.less, .less)
  | .greater => (.greater, .greater)
  | .lessEqual => (.lessEqual, .lessEqual)
  | .greaterEqual => (.greater, .greater)
  | .add => (.plus, .add)
  | .sub => (.minus, .sub)
  | .mul => (.star, .mul)
  | .div => (.slash, .div)
  | .mod => (.percent, .mod)

/-- The operator stands in one of the levels, and its mark in no tighter one. -/
def locates (op : BinaryOp) : List (List (Punct × BinaryOp)) → Bool
  | [] => false
  | level :: tighter =>
    (level.find? (fun entry => entry.1 = (operatorEntry op).1) = some (operatorEntry op) &&
        .punct (operatorEntry op).1 ∉ levelMarks tighter) ||
      (.punct (operatorEntry op).1 ∉ levelMarks [level] && locates op tighter)

theorem locates_operatorLevels (op : BinaryOp) : locates op operatorLevels = true := by
  cases op <;> decide

/-- The operator is read at its level. -/
theorem Reads.operator?_some {op : BinaryOp}
    (hlevel : level.find? (fun entry => entry.1 = (operatorEntry op).1) = some (operatorEntry op))
    (hk : k ≠ .punct .assign) : Reads (operator? level) (op.puncts.map .punct) k (· = op) := by
  refine .peek fun t ht => ?_
  have hhead : t.kind = .punct (operatorEntry op).1 := by
    rw [ht]
    cases op <;> rfl
  have hfind : level.find? (fun entry => t.isPunct entry.1) = some (operatorEntry op) := by
    rw [← hlevel]
    congr 1
    funext entry
    rw [Token.isPunct, hhead, Bool.eq_iff_iff, beq_iff_eq, decide_eq_true_iff,
      punct.injEq, eq_comm]
  rw [hfind]
  cases op with
  | greater =>
    exact .advance (x := .punct _) (by simp) fun _ _ => .accept_not hk (.pure rfl)
  | greaterEqual =>
    exact .advance (x := .punct _) (by simp) fun _ _ => .accept (.pure rfl)
  | _ => exact .advance (x := .punct _) (by simp) fun _ _ => .pure rfl

/-- Two operands with an operator between them. -/
theorem Reads.binary_operator {op : BinaryOp} {l r : Expr} (hop : locates op levels = true)
    (hstarts : Starts ls) (hk : k ∉ levelMarks levels)
    (hl : Reads operand ks (.punct (operatorEntry op).1) l.Same)
    (hr : Reads operand ls k r.Same) (loc : Location) :
    Reads (binary operand levels) (ks ++ (op.puncts.map .punct ++ ls)) k
      (Expr.binary loc op l r).Same := by
  induction levels with
  | nil => cases hop
  | cons level tighter ih =>
    obtain ⟨hlevel, htighter⟩ := not_mem_levelMarks_cons hk
    rw [locates, Bool.or_eq_true, Bool.and_eq_true, Bool.and_eq_true, decide_eq_true_iff,
      decide_eq_true_iff, decide_eq_true_iff] at hop
    rcases hop with ⟨hfind, htight⟩ | ⟨-, hop⟩
    · have hhead :
          (op.puncts.map punct ++ ls).headD k = .punct (operatorEntry op).1 := by
        cases op <;> rfl
      refine .bind (.binary_operand (hhead ▸ hl) (hhead ▸ htight)) fun e he => ?_
      refine .bounded fun n hn => ?_
      obtain ⟨n, rfl⟩ : ∃ m, n = m + 2 := by
        have : 0 < (op.puncts.map punct ++ ls).length := by
          rw [length_append]
          have := hstarts.length_pos
          omega
        exact ⟨n - 2, by omega⟩
      refine .bind (.operator?_some hfind (hstarts.head_ne rfl)) ?_
      rintro _ rfl
      rw [← append_nil ls]
      refine .bind (.binary_operand hr htighter) fun e' he' => ?_
      refine .operandsLoop_nil ?_ hlevel (Nat.succ_pos n)
      simp [he, he']
    · rw [← append_nil (ks ++ _)]
      exact .bind (ih hop htighter) fun e he => .bounded fun n hn =>
        Reads.operandsLoop_nil (P := fun e => e.bare = _) he hlevel hn

end Levels

/-! ## What stands for itself -/

section Primary

variable {P : Expr → Prop}

theorem Reads.primary_number (v : Binary64) (loc : Location) :
    Reads (primary self) [.number v] k (Expr.literal loc (.number v)).Same := by
  refine .peek_cons fun t ht => ?_
  simp only [ht]
  exact .advance nofun fun _ _ => .pure rfl

theorem Reads.primary_quoted (s : String) (loc : Location) :
    Reads (primary self) [.quoted s] k (Expr.literal loc (.text s)).Same := by
  refine .peek_cons fun t ht => ?_
  simp only [ht]
  exact .advance nofun fun _ _ => .pure rfl

theorem Reads.primary_word (w : String) :
    Reads (primary self) [.word w] k fun e => e.bare = wordExpr .nowhere w := by
  refine .peek_cons fun t ht => ?_
  simp only [ht]
  exact .advance nofun fun _ _ => .pure (wordExpr_bare t.loc w)

theorem Reads.primary_group (h : Reads self.expression ks (.punct .rparen) P) :
    Reads (primary self) (.punct .lparen :: ks ++ [.punct .rparen]) k P := by
  refine .peek_cons fun t ht => ?_
  simp only [ht]
  exact .advance nofun fun _ _ => .bind h fun e he => .expect (.pure he)

theorem Reads.primary_array {es : List Expr} (loc : Location)
    (h : ∀ e ∈ es, ∀ p ∈ [Punct.comma, .rbracket],
      Reads self.expression e.kinds (.punct p) e.Same) :
    Reads (primary self) (Expr.array loc es).kinds k (Expr.array loc es).Same := by
  rw [Expr.kinds_array]
  refine .peek_cons fun t ht => ?_
  simp only [ht]
  refine .advance nofun fun _ _ => ?_
  refine .map (.listed (by decide) rfl (fun e _ => .expr e) h)
    fun es' hes => ?_
  simp [map_bare_eq hes]

/-- A key is printed as a word or as a quoted text. -/
theorem keyKind_cases {key : String} (h : Text.isPlainKey key = true) :
    keyKind key = .word key ∨ keyKind key = .quoted key := by
  unfold keyKind
  split
  · exact .inl rfl
  · rename_i hkey
    rw [Text.isPlainKey, Bool.or_eq_true, or_iff_right hkey] at h
    rw [Text.reread_of_isPlain h]
    exact .inr rfl

theorem Reads.property {key : String} {v : Expr} (loc : Location)
    (hkey : Text.isPlainKey key = true)
    (hv : Reads self.expression v.kinds k v.Same) :
    Reads (property self) (Property.mk loc key v).kinds k (Property.mk loc key v).Same := by
  rw [Property.kinds_mk]
  refine .peek_cons fun t ht => ?_
  rcases keyKind_cases hkey with hkind | hkind
  all_goals
    rw [hkind] at ht ⊢
    simp only [propertyKey?, ht, memberName?]
    refine .advance nofun fun _ _ => .accept ?_
    exact .map hv fun e he => by simp [he]

theorem Reads.primary_object {ps : List Property} (loc : Location)
    (h : ∀ p ∈ ps, ∀ mark ∈ [Punct.comma, .rbrace],
      Reads (Snippet.property self) p.kinds (.punct mark) p.Same) :
    Reads (primary self) (Expr.object loc ps).kinds k (Expr.object loc ps).Same := by
  rw [Expr.kinds_object]
  refine .peek_cons fun t ht => ?_
  simp only [ht]
  refine .advance nofun fun _ _ => ?_
  refine .map (.listed (by decide) rfl (fun p _ => .property p) h)
    fun ps' hps => ?_
  simp [map_bare_eq hps]

end Primary

/-! ## Calls, members and elements -/

/-- After tokens of the kinds `ks` the rule goes on with its loop, from what is good. -/
def LeadsTo (rule : Step (Option α)) (loop : Nat → α → Step (Option α)) (ks : List TokenKind)
    (good : α → Prop) : Prop :=
  ∀ (ls : List TokenKind) (k : TokenKind) (P : α → Prop),
    (∀ a n, good a → ls.length < n → Reads (loop n a) ls k P) → Reads rule (ks ++ ls) k P

section Suffixes

variable {rule : Parse Expr} {P : Expr → Prop} {o : Expr}

theorem LeadsTo.of_first {first : Step (Option α)} {next : Option α → Step (Option α)}
    {loop : Nat → α → Step (Option α)} {good : α → Prop}
    (hnext : ∀ a, next (some a) = bounded fun n => loop n a) (h : ∀ k, Reads first ks k good) :
    LeadsTo (first >>= next) loop ks good := by
  refine fun _ _ _ hloop => .bind (h _) fun a ha => ?_
  rw [hnext]
  exact .bounded fun n hn => hloop a n ha hn

/-- One more round of the loop. -/
theorem LeadsTo.step {rule : Parse α} {loop : Nat → α → Parse α} {good good' : α → Prop}
    (h : LeadsTo rule loop ks good) (hls : 0 < ls.length)
    (hstep : ∀ a n (more : List TokenKind) (k : TokenKind) (P : α → Prop), good a →
      (∀ b, good' b → Reads (loop n b) more k P) → Reads (loop (n + 1) a) (ls ++ more) k P) :
    LeadsTo rule loop (ks ++ ls) good' := by
  intro more k P hloop
  rw [append_assoc]
  refine h _ _ _ fun a n ha hn => ?_
  rw [length_append] at hn
  obtain ⟨n, rfl⟩ : ∃ m, n = m + 1 := ⟨n - 1, by omega⟩
  exact hstep a n more k P ha fun b hb => hloop b n hb (by omega)

theorem Reads.membersLoop_nil (hn : 0 < n) (ho : P o) (hk : k ≠ .punct .dot) :
    Reads (membersLoop n o) [] k P := by
  obtain ⟨n, rfl⟩ := Nat.exists_eq_add_one.2 hn
  exact .accept_not hk (.pure ho)

theorem Reads.suffixesLoop_nil (hn : 0 < n) (ho : P o) (hk : endsCall k = true) :
    Reads (suffixesLoop self n o) [] k P := by
  obtain ⟨n, rfl⟩ := Nat.exists_eq_add_one.2 hn
  rw [endsCall, decide_eq_true_iff, mem_cons, mem_cons, mem_singleton, not_or, not_or] at hk
  exact .accept_not hk.1 (.accept_not hk.2.1 (.accept_not hk.2.2 (.pure ho)))

theorem LeadsTo.created_member (loc : Location) (p : String)
    (h : LeadsTo rule membersLoop ks o.Same) :
    LeadsTo rule membersLoop (ks ++ [.punct .dot, .word p]) (Expr.member loc o p).Same := by
  refine h.step (Nat.zero_lt_two) fun e n more k P he hloop => ?_
  refine .accept ?_
  refine .expectWord_bind (hloop _ ?_)
  simp [he]

theorem LeadsTo.member (loc : Location) (p : String)
    (h : LeadsTo rule (suffixesLoop self) ks o.Same) :
    LeadsTo rule (suffixesLoop self) (ks ++ [.punct .dot, .word p]) (Expr.member loc o p).Same := by
  refine h.step (Nat.zero_lt_two) fun e n more k P he hloop => ?_
  refine .accept_not nofun (.accept ?_)
  refine .expectWord_bind (hloop _ ?_)
  simp [he]

theorem LeadsTo.index (loc : Location) {key : Expr}
    (h : LeadsTo rule (suffixesLoop self) ks o.Same)
    (hkey : Reads self.expression key.kinds (.punct .rbracket) key.Same) :
    LeadsTo rule (suffixesLoop self) (ks ++ .punct .lbracket :: key.kinds ++ [.punct .rbracket])
      (Expr.index loc o key).Same := by
  rw [append_assoc]
  refine h.step (by simp) fun e n more k P he hloop => ?_
  rw [append_assoc, cons_append]
  refine .accept_not nofun (.accept_not nofun (.accept ?_))
  refine .bind hkey fun e' he' => .expect (hloop _ ?_)
  simp [he, he']

theorem Reads.arguments
    (h : ∀ e ∈ args, ∀ p ∈ [Punct.comma, .rparen],
      Reads self.expression e.kinds (.punct p) e.Same) :
    Reads (arguments self) (separated .comma (args.map Expr.kinds) ++ [.punct .rparen]) k
      fun es => es.map Expr.bare = args.map Expr.bare :=
  (Reads.listed (by decide) rfl (fun e _ => Starts.expr e) h).mono fun _ => map_bare_eq

theorem LeadsTo.call (loc : Location)
    (h : LeadsTo rule (suffixesLoop self) ks o.Same)
    (hargs : ∀ e ∈ args, ∀ p ∈ [Punct.comma, .rparen],
      Reads self.expression e.kinds (.punct p) e.Same) :
    LeadsTo rule (suffixesLoop self)
      (ks ++ .punct .lparen :: separated .comma (args.map Expr.kinds) ++ [.punct .rparen])
      (Expr.call loc o args).Same := by
  rw [append_assoc]
  refine h.step (by simp) fun e n more k P he hloop => ?_
  refine .accept (.bind (.arguments hargs) fun es hes => hloop _ ?_)
  simp [he, hes]

/-- What is not created by `new` begins with an expression that stands for itself. -/
theorem LeadsTo.of_primary (hks : Starts ks) (hnew : ks.head? ≠ some (.word "new"))
    (h : ∀ k, Reads (primary self) ks k P) :
    LeadsTo (Snippet.call self) (suffixesLoop self) ks P := by
  intro ls k Q hloop
  refine .peek fun t ht => ?_
  rw [isWord_of_ne ?_]
  · exact LeadsTo.of_first (fun _ => rfl) h ls k Q hloop
  · rw [ht]
    obtain ⟨x, more, rfl, -⟩ := hks
    exact fun hx => hnew (congrArg some hx)

/-- `new` with what is created and its arguments. -/
theorem LeadsTo.create (loc : Location)
    (ho : LeadsTo (callee self) membersLoop ks o.Same)
    (hargs : ∀ e ∈ args, ∀ p ∈ [Punct.comma, .rparen],
      Reads self.expression e.kinds (.punct p) e.Same) :
    LeadsTo (Snippet.call self) (suffixesLoop self)
      (.word "new" :: ks ++ .punct .lparen :: separated .comma (args.map Expr.kinds) ++
        [.punct .rparen]) (Expr.create loc o args).Same := by
  intro ls k Q hloop
  refine .peek_cons fun t ht => ?_
  rw [isWord_iff.2 ht]
  suffices hfirst : ∀ k, Reads (creation self) (.word "new" :: ks ++ .punct .lparen ::
      separated .comma (args.map Expr.kinds) ++ [.punct .rparen]) k
        (Expr.create loc o args).Same from
    LeadsTo.of_first (fun _ => rfl) hfirst ls k Q hloop
  intro k
  unfold creation
  rw [append_assoc, cons_append]
  refine .advance nofun fun start _ => .bind (P := o.Same) ?_ fun e he => ?_
  · rw [← append_nil ks]
    exact ho _ _ _ fun e n he hn => .membersLoop_nil hn he nofun
  · refine .accept (.map (.arguments hargs) fun es hes => ?_)
    simp [he, hes]

/-- Nothing more is called. -/
theorem LeadsTo.reads (h : LeadsTo rule (suffixesLoop self) ks P) (hk : endsCall k = true) :
    Reads rule ks k P := by
  rw [← append_nil ks]
  exact h _ _ _ fun e n he hn => .suffixesLoop_nil hn he hk

end Suffixes

/-! ## Operators, assignments and arrow functions -/

section Operators

variable {P : Expr → Prop}

/-- The tokens begin with no operator. -/
def unsigned (ks : List TokenKind) : Bool :=
  ks.head? ≠ some (.punct .bang) && ks.head? ≠ some (.punct .minus) &&
    ks.head? ≠ some (.word "typeof")

theorem Reads.unary_of_call (hks : Starts ks) (hop : unsigned ks = true)
    (h : Reads (call self) ks k P) : Reads (unary self) ks k P := by
  refine .peek fun t ht => ?_
  have hnone : unaryOp? t = none := by
    rw [Option.eq_none_iff_forall_ne_some]
    intro op hsome
    rw [unaryOp?_eq_some, ht] at hsome
    obtain ⟨x, more, rfl, -⟩ := hks
    rw [headD_cons] at hsome
    rw [hsome] at hop
    cases op <;> revert hop <;> simp [unsigned, UnaryOp.kind]
  rw [hnone]
  exact h

theorem Reads.unary_operator (op : UnaryOp) {x : Expr} (loc : Location)
    (h : Reads self.unary ks k x.Same) :
    Reads (unary self) (op.kind :: ks) k (Expr.unary loc op x).Same := by
  refine .peek fun t ht => ?_
  have hsome : unaryOp? t = some op := unaryOp?_eq_some.2 ht
  rw [hsome]
  refine .advance (by cases op <;> exact nofun) fun _ _ => .map h fun e he => ?_
  simp [he]

theorem Reads.assignment_of_binary (hk : k ≠ .punct .assign)
    (h : Reads (binary (unary self) operatorLevels) ks k P) :
    Reads (assignment self) ks k P := by
  unfold assignment
  rw [← append_nil ks]
  refine .bind h fun e he => .peek fun t ht => ?_
  rw [isPunct_of_ne (by rwa [ht])]
  exact .pure he

theorem Reads.assignment_assign {target value : Expr} (loc : Location)
    (hkind : isTarget target = true)
    (ht : Reads (binary (unary self) operatorLevels) ks (.punct .assign)
      target.Same)
    (hv : Reads self.expression ls k value.Same) :
    Reads (assignment self) (ks ++ .punct .assign :: ls) k (Expr.assign loc target value).Same := by
  unfold assignment
  refine .bind ht fun e he => .peek fun t ht => ?_
  rw [isPunct_iff.2 ht]
  refine .advance nofun fun _ _ => ?_
  rw [← append_nil ls]
  refine .bind hv fun e' he' => ?_
  have htarget : isTarget e = true := by rw [← isTarget_bare, he, isTarget_bare, hkind]
  rw [htarget]
  refine .pure ?_
  simp [he, he']

/-- What does not look like an arrow function is none. -/
theorem Reads.expression_of_assignment (hks : Unarrowed ks) (hk : k ≠ .punct .arrow)
    (h : Reads (assignment self) ks k P) : Reads (expression self) ks k P := by
  refine .peek fun t ht => ?_
  cases ks with
  | nil => exact hks.elim
  | cons x ks =>
    rw [headD_cons] at ht
    cases x with
    | word w =>
      simp only [ht]
      refine .peekSecond fun t' ht' => ?_
      rw [isPunct_of_ne ?_]
      · exact h
      · rw [ht']
        cases ks with
        | nil => exact hk
        | cons y ks => exact fun hy => hks (congrArg some hy)
    | punct p =>
      cases p with
      | lparen =>
        simp only [ht]
        obtain ⟨inner, more, rfl, hclosed, hmore⟩ := hks
        refine .arrowFollows hclosed ?_
        rw [beq_false_of_ne ?_]
        · exact h
        · cases more with
          | nil => exact hk
          | cons y more => exact fun hy => hmore (congrArg some hy)
      | _ =>
        simp only [ht]
        exact h
    | _ =>
      simp only [ht]
      exact h

theorem Reads.expression_of_binary (hks : Unarrowed ks) (hk : endsExpr k = true)
    (h : Reads (binary (unary self) operatorLevels) ks k P) :
    Reads (expression self) ks k P := by
  rw [endsExpr, Bool.and_eq_true, decide_eq_true_iff, mem_cons, mem_singleton, not_or] at hk
  exact .expression_of_assignment hks hk.2.2 (.assignment_of_binary hk.2.1 h)

/-- The same in parentheses. -/
theorem LeadsTo.group (h : Reads self.expression ks (.punct .rparen) P) :
    LeadsTo (Snippet.call self) (suffixesLoop self) (.punct .lparen :: ks ++ [.punct .rparen]) P :=
  LeadsTo.of_primary (.cons rfl) (by simp) fun _ => .primary_group h

theorem Reads.unary_group (h : Reads self.expression ks (.punct .rparen) P)
    (hk : endsCall k = true) :
    Reads (unary self) (.punct .lparen :: ks ++ [.punct .rparen]) k P :=
  Reads.unary_of_call (Starts.cons rfl) (by rfl) ((LeadsTo.group h).reads hk)

theorem Reads.expression_group (hks : Brackets.parens.Closed ks)
    (h : Reads self.expression ks (.punct .rparen) P) (hk : endsExpr k = true) :
    Reads (expression self) (.punct .lparen :: ks ++ [.punct .rparen]) k P := by
  have hends := endsOperators_of_endsExpr hk
  refine .expression_of_binary ⟨ks, [], rfl, hks, nofun⟩ hk ?_
  exact .binary_operand (.unary_group h (endsCall_of_endsOperators hends))
    (not_mem_levelMarks hends)

end Operators

end Snippet

end Componentry
