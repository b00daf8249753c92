import Componentry.Proofs.Snippet.Lockstep

/-!
# The grammar in lockstep

Every rule of the grammar goes in step with itself on moved tokens, and takes at least one token.
The rules that contain themselves are taken together (`Pass.Rules`): if what a rule falls back on
goes in step on fewer than `k` tokens, the rule goes in step on `k`, since it has taken a token
before it falls back. So a grammar goes in step on all lists of fewer tokens than it is unrolled
(`Pass.grammar_inStep`).

The tokens of a tree that is read are again tokens that scanning can give: every word in it comes
from a word of the snippet, every number from a number. A `Form` says so for each kind of tree.
-/

namespace Componentry.Snippet

namespace Form

@[simp] def expr : Form Expr := ⟨Expr.move, fun e => AllProper e.kinds⟩

@[simp] def property : Form Property := ⟨Property.move, fun x => AllProper x.kinds⟩

@[simp] def body : Form ArrowBody := ⟨ArrowBody.move, fun b => AllProper b.kinds⟩

@[simp] def stmt : Form Stmt := ⟨Stmt.move, fun s => AllProper s.kinds⟩

@[simp] def binding : Form Binding := ⟨fun _ => id, fun b => AllProper b.kinds⟩

@[simp] def type : Form TypeExpr := ⟨TypeExpr.move, fun t => AllProper t.kinds⟩

@[simp] def signature : Form PropertyType := ⟨PropertyType.move, fun x => AllProper x.kinds⟩

@[simp] def param : Form Param := ⟨Param.move, fun x => AllProper x.kinds⟩

/-- A type after `:`, if there is one. -/
@[simp] def suffix : Form (Option TypeExpr) :=
  ⟨TypeExpr.move?, fun t => AllProper (TypeExpr.suffixKinds t)⟩

/-- A value after `=`, if there is one. -/
@[simp] def init : Form (Option Expr) := ⟨Expr.move?, fun v => AllProper (Expr.initKinds v)⟩

/-- A field: what may be left out is not declared with `!`. -/
@[simp] def field : Form Field :=
  ⟨Field.move, fun f => (f.optional = true → f.definite = false) ∧
    AllProper (TypeExpr.suffixKinds f.type) ∧ AllProper (Expr.initKinds f.init)⟩

/-- A dotted name. -/
@[simp] def name : Form String := ⟨fun _ => id, fun n => AllProper (nameKinds n)⟩

end Form

namespace Pass

variable {p : Pass} {k n : Nat} {e e' : Expr}

/-! ## Loops that stay out of the grammar -/

theorem modifiers_inStep : p.Follows .plain n (modifiers n) (modifiers n) := by
  induction n with
  | zero => exact .zero
  | succ n ih =>
    unfold modifiers
    refine .peek fun t s _ => .peekSecond fun s' hs' => ?_
    rw [Token.kind_move, hs']
    split
    · rename_i w _ hw _
      split
      · exact .advance (by simp [hw]) (.bind ih rfl fun _ _ => .done rfl)
      · exact .of_follows (.done rfl)
    · exact .of_follows (.done rfl)

theorem membersLoop_inStep (he : e.move p.move = e') (hp : p.clean → AllProper e.kinds) :
    p.Follows .expr n (membersLoop n e) (membersLoop n e') := by
  induction n generalizing e e' with
  | zero => exact .zero
  | succ n ih =>
    unfold membersLoop
    refine .accept (.take .expectWord rfl fun name hname => ih ?_ fun hc => ?_) (.pure he hp)
    · simp [Expr.move, ← he]
    · simpa using ⟨hp hc, hname hc⟩

theorem dottedLoop_inStep {name : String} (hp : p.clean → AllProper (nameKinds name)) :
    p.Follows .name n (dottedLoop n name) (dottedLoop n name) := by
  induction n generalizing name with
  | zero => exact .zero
  | succ n ih =>
    unfold dottedLoop
    refine .peek fun t s h => .peekSecond fun s' hs' => ?_
    rw [hs']
    split
    · rename_i w hw
      rw [Token.isPunct_move]
      refine both_ite (fun hdot => ?_) fun _ => .of_follows (.pure rfl hp)
      refine .advance_two (ne_done_of_isPunct hdot) (by simp [hw]) (ih fun hc => ?_)
      have hnext := h.second hw hc
      rw [allProper_nameKinds, nameWords_append hnext, List.forall_mem_append]
      exact ⟨allProper_nameKinds.1 (hp hc), by simpa using hnext⟩
    · exact .of_follows (.pure rfl hp)

theorem arraysLoop_inStep {t t' : TypeExpr} (ht : t.move p.move = t')
    (hp : p.clean → AllProper t.kinds) : p.Follows .type n (arraysLoop n t) (arraysLoop n t') := by
  induction n generalizing t t' with
  | zero => exact .zero
  | succ n ih =>
    unfold arraysLoop
    refine .sees_at fun first s => .peekSecond fun s' hs' => ?_
    rw [show s'.isPunct .rbracket = s.isPunct .rbracket by rw [Token.isPunct, hs']; rfl]
    refine both_ite (fun hb => ?_) fun _ => .of_follows (.pure ht hp)
    rw [Bool.and_eq_true] at hb
    refine .advance_two (ne_done_of_isPunct hb.1) (ne_done_of_isPunct hb.2) (ih ?_ fun hc => ?_)
    · rw [TypeExpr.move, ← ht, TypeExpr.loc_move]
    · simpa using hp hc

theorem memberWords_inStep : p.Follows .plain n (memberWords n) (memberWords n) := by
  induction n with
  | zero => exact .zero
  | succ n ih =>
    unfold memberWords
    refine .peek fun t s _ => .peekSecond fun s' hs' => ?_
    rw [Token.kind_move,
      show memberName? s' = memberName? s by rw [memberName?, hs']; rfl]
    split
    · rename_i w hw
      refine both_ite (fun _ => ?_) fun _ => .of_follows (.done rfl)
      exact .advance (by simp [hw]) (.bind ih rfl fun _ _ => .done rfl)
    · exact .of_follows (.done rfl)

/-! ## Operators -/

/-- An operator that is next is taken. -/
theorem Follows.operator? {β : Type} {T : Form β} {level : List (Punct × BinaryOp)}
    {g g' : Option BinaryOp → Step (Option β)}
    (h₁ : ∀ op, p.Follows T k (g (some op)) (g' (some op)))
    (h₂ : p.Follows T (k + 1) (g none) (g' none)) :
    p.Follows T (k + 1) (operator? level >>= g) (Snippet.operator? level >>= g') := by
  unfold Snippet.operator?
  rw [bind_assoc, bind_assoc]
  refine .peek fun t s _ => ?_
  rw [Token.isPunct_move]
  split
  · exact .of_follows h₂
  · rename_i q op hfind
    have hq := List.find?_some hfind
    rw [bind_assoc, bind_assoc]
    refine .advance (ne_done_of_isPunct hq) ?_
    -- after `>` the mark `=` is part of the operator and is taken with it
    by_cases hop : op = .greater
    · rw [if_pos hop, bind_assoc, bind_assoc]
      refine .accept_any fun eq => ?_
      cases eq with
      | true => exact h₁ _
      | false => exact h₁ _
    · rw [if_neg hop]
      exact h₁ _

theorem operandsLoop_inStep {level : List (Punct × BinaryOp)}
    {operand operand' : Step (Option Expr)}
    (h : p.Advances .expr k operand operand') (hn : n ≤ k) (he : e.move p.move = e')
    (hp : p.clean → AllProper e.kinds) :
    p.Follows .expr n (operandsLoop level operand n e) (operandsLoop level operand' n e') := by
  induction n generalizing e e' with
  | zero => exact .zero
  | succ n ih =>
    unfold operandsLoop
    refine .operator? (fun op => .take (h.mono (by omega)) rfl fun right hright => ?_) (.pure he hp)
    refine ih (by omega) ?_ fun hc => ?_
    · simp [Expr.move, ← he]
    · simpa using ⟨hp hc, hright hc⟩

/-- The levels of operators are finitely many, so going from one to the next takes no token. -/
theorem binary_inStep {operand operand' : Step (Option Expr)}
    (h : p.Advances .expr k operand operand') (levels : List (List (Punct × BinaryOp))) :
    p.Advances .expr k (binary operand levels) (binary operand' levels) := by
  induction levels with
  | nil => exact h
  | cons level tighter ih =>
    exact .bind_any ih rfl fun first hfirst => .bounded fun n hn =>
      operandsLoop_inStep ih hn rfl hfirst

/-! ## Rules -/

/-- The rules of two grammars go in step wherever fewer than `k` tokens are left. -/
structure Rules (p : Pass) (k : Nat) (g g' : Grammar) : Prop where
  expression : p.Advances .expr k g.expression g'.expression
  unary : p.Advances .expr k g.unary g'.unary
  statement : p.Advances .stmt k g.statement g'.statement
  type : p.Advances .type k g.type g'.type

section Rules

variable {self self' : Grammar} (hself : p.Rules k self self')
include hself

theorem typeSuffix_inStep : p.Follows .suffix (k + 1) (typeSuffix self) (typeSuffix self') := by
  refine .accept (.take hself.type rfl fun t ht => .pure rfl fun hc => ?_) (.pure rfl fun _ => .nil)
  simpa [TypeExpr.suffixKinds] using ht hc

theorem valueSuffix_inStep : p.Follows .init (k + 1) (valueSuffix self) (valueSuffix self') := by
  refine .accept (.take hself.expression rfl fun e he => .pure rfl fun hc => ?_)
    (.pure rfl fun _ => .nil)
  simpa [Expr.initKinds] using he hc

theorem param_inStep : p.Advances .param (k + 1) (param self) (param self') := by
  unfold param
  refine .peek fun start s _ => .of_advances (.after (.bounded fun n _ => modifiers_inStep) rfl ?_)
  refine fun modifier _ => .bind_any .expectWord rfl fun name hname => .accept_any fun _ => ?_
  refine .bind (typeSuffix_inStep hself) rfl fun type htype => .peek fun next s _ => ?_
  rw [Token.isPunct_move]
  refine both_ite (fun _ => .complain) fun _ => .of_follows (.pure rfl fun hc => ?_)
  simpa using ⟨hname hc, htype hc⟩

theorem params_inStep : p.Advances (.list .param) (k + 1) (params self) (params self') :=
  listed_inStep (param_inStep hself)

theorem statementsLoop_inStep (hn : n ≤ k) :
    p.Follows (.list .stmt) n (statementsLoop self n) (statementsLoop self' n) := by
  induction n with
  | zero => exact .zero
  | succ n ih =>
    unfold statementsLoop
    refine .sees fun _ => .isDone fun _ => both_ite (fun _ => .pure rfl (by simp)) fun _ => ?_
    -- a semicolon alone is no statement, but skipping it takes a token as well
    have hstatement := hself.statement.mono hn
    refine .accept (ih (by omega)) (Advances.follows (.bind hstatement rfl fun s hs => ?_))
    refine .bind (ih (by omega)) rfl fun ss hss => ?_
    exact .pure rfl fun hc => List.forall_mem_cons.2 ⟨hs hc, hss hc⟩

theorem block_inStep : p.Advances (.list .stmt) (k + 1) (block self) (block self') := by
  refine .bind .expect rfl fun _ _ => ?_
  refine .bind (.bounded fun n hn => statementsLoop_inStep hself hn) rfl fun body hbody => ?_
  exact .take .expect rfl fun _ _ => .pure rfl hbody

theorem arrowBody_inStep : p.Advances .body (k + 1) (arrowBody self) (arrowBody self') := by
  refine .bind .expect rfl fun _ _ => .sees fun _ => both_ite (fun _ => ?_) fun _ => ?_
  · refine .take (block_inStep hself).lower rfl fun ss hss => .pure ?_ fun hc => ?_
    · simp [ArrowBody.move]
    · simpa using hss hc
  · exact .take hself.expression rfl fun e he => .pure rfl fun hc => by simpa using he hc

theorem arguments_inStep : p.Advances (.list .expr) k (arguments self) (arguments self') :=
  listed_inStep hself.expression

/-- The rest of an entry after its key. -/
theorem entry_inStep {t s : Token} (ht : p.Sees t s) (key : String) : p.Follows .property k
      (do if ← accept .colon then return (← self.expression).map (.mk t.loc key)
          else match t.kind with
            | .word w => return some (.mk t.loc key (.name t.loc w))
            | _ => complain .colonAfterKey (← peek))
      (do if ← accept .colon then return (← self'.expression).map (.mk (p.move t.loc) key)
          else match t.kind with
            | .word w => return some (.mk (p.move t.loc) key (.name (p.move t.loc) w))
            | _ => complain .colonAfterKey (← peek)) := by
  refine .accept_any fun colon => both_ite (fun _ => ?_) fun _ => ?_
  · exact .take hself.expression rfl fun e he => .pure rfl fun hc => by simpa using he hc
  · split
    · rename_i w hw
      exact .pure rfl fun hc => by simpa using ht.first hw hc
    · exact .peek fun s _ _ => .complain

theorem property_inStep : p.Advances .property (k + 1) (property self) (property self') := by
  unfold property
  refine .peek fun t s h => ?_
  rw [show propertyKey? (t.move p.move) = propertyKey? t from rfl]
  split
  · rename_i key hkey
    have ht : t.kind ≠ .done := fun hdone => by simp [propertyKey?, memberName?, hdone] at hkey
    exact .advance ht (entry_inStep hself h key)
  · exact .complain

theorem primary_inStep : p.Advances .expr (k + 1) (primary self) (primary self') := by
  unfold primary
  refine .peek fun t s h => ?_
  rw [Token.kind_move]
  split
  · rename_i v hv
    refine .advance (by simp [hv]) (.pure rfl fun hc => ?_)
    simpa using (allProper_number (h.first hv hc)).1
  · rename_i s hs
    exact .advance (by simp [hs]) (.pure rfl (by simp [Literal.kinds, Literal.chunks]))
  · rename_i w hw
    refine .advance (by simp [hw]) (.pure ?_ fun hc => allProper_wordExpr (h.first hw hc))
    split <;> rfl
  · rename_i hq
    refine .advance (by simp [hq]) (.take hself.expression rfl fun e he => ?_)
    exact .take .expect rfl fun _ _ => .pure rfl he
  · rename_i hq
    refine .advance (by simp [hq]) (.take (listed_inStep hself.expression) rfl fun es hes => ?_)
    exact .pure (by simp [Expr.move]) fun hc => by simpa using hes hc
  · rename_i hq
    have hentry := property_inStep hself
    refine .advance_any (by simp [hq]) (.take (listed_inStep hentry) rfl fun ps hps => ?_)
    exact .pure (by simp [Expr.move]) fun hc => by simpa using hps hc
  · exact .complain

theorem callee_inStep : p.Advances .expr (k + 1) (callee self) (callee self') :=
  .bind_any (primary_inStep hself) rfl fun _ hc =>
    .bounded fun _ _ => membersLoop_inStep rfl hc

theorem creation_inStep {t s : Token} (ht : t.kind ≠ .done) :
    p.FollowsAt .expr 0 (k + 1) t s (creation self) (creation self') := by
  have hnew : (TokenKind.word "new").Proper := (by decide : Text.isIdentifier "new" = true)
  refine .advance_any ht (.take (callee_inStep hself) rfl fun c hc => ?_)
  refine .accept (.take (arguments_inStep hself) rfl fun args hargs => ?_) ?_
  · exact .pure (by simp [Expr.move]) fun hp => by simpa [hnew] using ⟨hc hp, hargs hp⟩
  · exact .pure rfl fun hp => by simpa [hnew] using hc hp

theorem suffixesLoop_inStep (hn : n ≤ k + 1) (he : e.move p.move = e')
    (hp : p.clean → AllProper e.kinds) :
    p.Follows .expr n (suffixesLoop self n e) (suffixesLoop self' n e') := by
  induction n generalizing e e' with
  | zero => exact .zero
  | succ n ih =>
    unfold suffixesLoop
    -- each of the three suffixes begins with a mark of its own, so a round takes a token
    refine .accept ?_ (.accept ?_ (.accept ?_ (.pure he hp)))
    · refine .take ((arguments_inStep hself).mono (by omega)) rfl fun args hargs => ?_
      refine ih (by omega) (by simp [Expr.move, ← he]) fun hc => ?_
      simpa using ⟨hp hc, hargs hc⟩
    · refine .take .expectWord rfl fun name hname => ?_
      refine ih (by omega) (by simp [Expr.move, ← he]) fun hc => ?_
      simpa using ⟨hp hc, hname hc⟩
    · refine .take (hself.expression.mono (by omega)) rfl fun key hkey => ?_
      refine .take .expect rfl fun _ _ => ?_
      refine ih (by omega) (by simp [Expr.move, ← he]) fun hc => ?_
      simpa using ⟨hp hc, hkey hc⟩

theorem call_inStep : p.Advances .expr (k + 1) (call self) (call self') := by
  have hsuffixes : ∀ head : Expr, (p.clean → AllProper head.kinds) → p.Follows .expr (k + 1)
      (bounded fun n => suffixesLoop self n head)
      (bounded fun n => suffixesLoop self' n (head.move p.move)) :=
    fun head hhead => .bounded fun n hn => suffixesLoop_inStep hself hn rfl hhead
  unfold call
  refine .peek fun t s _ => ?_
  rw [Token.isWord_move]
  dsimp only
  refine both_ite (fun hnew => ?_) fun _ => ?_
  · exact .bind (creation_inStep hself (by rw [isWord_iff.1 hnew]; simp)) rfl hsuffixes
  · exact .of_advances (.bind_any (primary_inStep hself) rfl hsuffixes)

theorem unary_inStep : p.Advances .expr (k + 1) (unary self) (unary self') := by
  unfold unary
  refine .peek fun t s _ => ?_
  rw [show unaryOp? (t.move p.move) = unaryOp? t from rfl]
  split
  · rename_i op hop
    have ht : t.kind ≠ .done := fun hdone => by simp [unaryOp?, hdone] at hop
    refine .advance ht (.take hself.unary rfl fun e he => .pure rfl fun hc => ?_)
    simpa using he hc
  · exact .of_advances (call_inStep hself)

theorem assignment_inStep : p.Advances .expr (k + 1) (assignment self) (assignment self') := by
  refine .bind_any (binary_inStep (unary_inStep hself) operatorLevels) rfl fun target htarget => ?_
  refine .peek fun eq s heq => ?_
  rw [Token.isPunct_move, Form.expr, isTarget_move]
  refine both_ite (fun hq => ?_) fun _ => .of_follows (.pure rfl htarget)
  refine .advance (ne_done_of_isPunct hq) (.take hself.expression rfl fun value hvalue => ?_)
  -- the complaint is about the mark `=`, which was passed when the value was read
  refine both_ite (fun _ => .pure (by simp [Expr.move]) fun hc => ?_) fun _ => .complain heq
  simpa using ⟨htarget hc, hvalue hc⟩

theorem expression_inStep : p.Advances .expr (k + 1) (expression self) (expression self') := by
  have hassign := assignment_inStep hself
  unfold expression
  refine .peek fun t s h => ?_
  rw [Token.kind_move]
  split
  · rename_i w hw
    refine .peekSecond fun s' hs' => ?_
    rw [show s'.isPunct .arrow = s.isPunct .arrow by rw [Token.isPunct, hs']; rfl]
    refine both_ite (fun _ => ?_) fun _ => .of_advances hassign
    refine .advance_any (by simp [hw]) (.take (arrowBody_inStep hself) rfl fun b hb => ?_)
    refine .pure rfl fun hc => ?_
    simpa [TypeExpr.suffixKinds] using ⟨h.first hw hc, hb hc⟩
  · rename_i hq
    refine .arrowFollows fun found => both_ite (fun _ => ?_) fun _ => .of_advances hassign
    refine .advance_any (by simp [hq]) (.take (params_inStep hself) rfl fun ps hps => ?_)
    refine .take (arrowBody_inStep hself) rfl fun b hb => .pure (by simp [Expr.move]) fun hc => ?_
    simpa using ⟨hps hc, hb hc⟩
  · exact .of_advances hassign

/-! ### Statements -/

omit hself in
theorem binding_inStep : p.Advances .binding k binding binding := by
  refine .accept (.take (listed_inStep (k := k) .expectWord) rfl fun names hnames => ?_) ?_
  · exact .pure (by simp) fun hc => by simpa [Binding.kinds] using hnames hc
  · refine .bind_any .expectWord rfl fun n hn => .pure rfl fun hc => ?_
    simpa [Binding.kinds] using hn hc

theorem declaration_inStep (loc : Location) (kind : BindingKind) :
    p.Advances .stmt (k + 1) (declaration self loc kind)
      (declaration self' (p.move loc) kind) := by
  refine .bind_any binding_inStep rfl fun b hb => ?_
  refine .bind (typeSuffix_inStep hself) rfl fun type htype => ?_
  refine .bind (valueSuffix_inStep hself) rfl fun value hvalue => .pure rfl fun hc => ?_
  simpa [Stmt.kinds_eq, Stmt.core, Stmt.closer] using ⟨hb hc, htype hc, hvalue hc⟩

theorem bareStatement_inStep :
    p.Advances .stmt (k + 1) (bareStatement self) (bareStatement self') := by
  have hreturn : (TokenKind.word "return").Proper :=
    (by decide : Text.isIdentifier "return" = true)
  unfold bareStatement
  refine .peek fun t s _ => ?_
  rw [Token.kind_move]
  split
  · rename_i hw
    exact .advance_any (by simp [hw]) (declaration_inStep hself t.loc .fixed).follows
  · rename_i hw
    exact .advance_any (by simp [hw]) (declaration_inStep hself t.loc .settable).follows
  · rename_i hw
    -- `return` alone: the end, a semicolon or a closing brace is next and is left there
    refine .advance (by simp [hw]) (.isDone fun _ => .sees fun _ => .sees fun _ => ?_)
    refine both_ite (fun _ => .pure rfl ?_) fun _ => .take hself.expression rfl fun e he => ?_
    · simpa [Stmt.kinds_eq, Stmt.core, Stmt.closer] using fun _ => hreturn
    · refine .pure rfl fun hc => ?_
      simpa [Stmt.kinds_eq, Stmt.core, Stmt.closer] using ⟨hreturn, he hc⟩
  · refine .of_advances (.bind_any (block_inStep hself) rfl fun ss hss => .pure ?_ fun hc => ?_)
    · simp [Stmt.move]
    · simpa [Stmt.kinds_eq, Stmt.core, Stmt.closer] using hss hc
  · refine .of_advances (.bind_any (expression_inStep hself) rfl fun e he => .pure rfl fun hc => ?_)
    simpa [Stmt.kinds_eq, Stmt.core, Stmt.closer] using he hc

theorem statement_inStep : p.Advances .stmt (k + 1) (statement self) (statement self') :=
  .bind_any (bareStatement_inStep hself) rfl fun _ hs => .accept_any fun _ => .pure rfl hs

/-! ### Types -/

theorem reference_inStep {t s : Token} {w : String} (h : p.Sees t s) (hw : t.kind = .word w) :
    p.FollowsAt .type 0 (k + 1) t s (reference self t.loc w)
      (reference self' (p.move t.loc) w) := by
  have hname : p.clean → AllProper (nameKinds w) := by
    intro hc
    have hword := h.first hw hc
    rw [allProper_nameKinds, nameWords_of_isIdentifier hword]
    simpa using hword
  refine .advance_any (by simp [hw]) (.bind (.bounded fun n _ => dottedLoop_inStep hname) rfl ?_)
  refine fun name hname => .accept (.take (chain_inStep hself.type) rfl fun args hargs => ?_) ?_
  · refine .take .expect rfl fun _ _ => .pure (by simp [TypeExpr.move]) fun hc => ?_
    have hnamed : AllProper (nameKinds name) := hname hc
    cases args with
    | nil => simpa using hnamed
    | cons a as => simpa [hnamed] using hargs hc
  · exact .pure rfl fun hc => by simpa using hname hc

theorem signature_inStep : p.Advances .signature (k + 1)
      (signature self) (signature self') := by
  have hvoid : (TokenKind.word "void").Proper := (by decide : Text.isIdentifier "void" = true)
  refine .peek fun t s _ => .of_advances (.bind_any .expectMemberName rfl fun name _ => ?_)
  refine .accept_any fun optional => .accept_any fun call => both_ite (fun _ => ?_) fun _ => ?_
  · refine .take (params_inStep hself) rfl fun ps hps => .bind (typeSuffix_inStep hself) rfl ?_
    refine fun result hresult => .pure (by simp [PropertyType.move, TypeExpr.move]) fun hc => ?_
    cases result with
    | none => simpa [hvoid] using hps hc
    | some r => simpa using ⟨hps hc, by simpa [TypeExpr.suffixKinds] using hresult hc⟩
  · refine Advances.follows (.bind .expect rfl fun _ _ => .take hself.type rfl fun t ht => ?_)
    exact .pure rfl fun hc => by simpa using ht hc

theorem propertySignature_inStep :
    p.Advances .signature (k + 1) (propertySignature self) (propertySignature self') := by
  have hsignature := signature_inStep hself
  unfold propertySignature
  refine .peek fun t s _ => .peekSecond fun s' hs' => ?_
  rw [Token.isWord_move,
    show memberName? s' = memberName? s by rw [memberName?, hs']; rfl]
  dsimp only
  refine both_ite (fun hreadonly => ?_) fun _ => .of_advances hsignature
  rw [Bool.and_eq_true, isWord_iff] at hreadonly
  exact .advance_any (by rw [hreadonly.1]; simp) hsignature.follows

theorem primaryType_inStep : p.Advances .type (k + 1) (primaryType self) (primaryType self') := by
  unfold primaryType
  refine .peek fun t s h => ?_
  rw [Token.kind_move]
  split
  · rename_i hq
    have ht : t.kind ≠ .done := by rw [hq]; simp
    refine .arrowFollows fun found => both_ite (fun _ => .advance ht ?_) fun _ => .advance ht ?_
    · refine .take (params_inStep hself).lower rfl fun ps hps => .take .expect rfl fun _ _ => ?_
      refine .take hself.type rfl fun r hr => .pure (by simp [TypeExpr.move, TypeExpr.move?]) ?_
      exact fun hc => by simpa using ⟨hps hc, hr hc⟩
    · exact .take hself.type rfl fun _ ht => .take .expect rfl fun _ _ => .pure rfl ht
  · rename_i hq
    refine .advance (by simp [hq]) (.take (listed_inStep hself.type) rfl fun ts hts => ?_)
    exact .pure (by simp [TypeExpr.move]) fun hc => by simpa using hts hc
  · rename_i hq
    have hitem := propertySignature_inStep hself
    refine .advance (by simp [hq]) (.bind (.bounded fun n hn =>
      itemsLoop_inStep hitem (Nat.le_succ_of_le hn)) rfl fun ps hps => ?_)
    refine .take .expect rfl fun _ _ => ?_
    exact .pure (by simp [TypeExpr.move]) fun hc => by simpa using hps hc
  · rename_i s hs
    exact .advance (by simp [hs]) (.pure rfl (by simp [Literal.kinds, Literal.chunks]))
  · rename_i v hv
    refine .advance (by simp [hv]) (.pure rfl fun hc => ?_)
    simpa using (allProper_number (h.first hv hc)).1
  · rename_i hq
    refine .peekSecond fun s' hs' => ?_
    rw [hs']
    split
    · rename_i v hv
      refine .advance_two (by simp [hq]) (by simp [hv]) (.pure rfl fun hc => ?_)
      simpa using (allProper_number (h.second hv hc)).2
    · exact .complain
  · rename_i hw
    exact .advance (by simp [hw]) (.pure rfl fun hc => by
      simpa [Literal.kinds, Literal.chunks] using h.first hw hc)
  · rename_i hw
    exact .advance (by simp [hw]) (.pure rfl fun hc => by
      simpa [Literal.kinds, Literal.chunks] using h.first hw hc)
  · rename_i hw
    refine .advance_any (by simp [hw]) (.take (call_inStep hself) rfl fun e he => ?_)
    exact .pure rfl fun hc => by simpa using ⟨h.first hw hc, he hc⟩
  · rename_i w _ _ _ hw
    exact reference_inStep hself h hw
  · exact .complain

theorem arrayType_inStep : p.Advances .type (k + 1) (arrayType self) (arrayType self') :=
  .bind_any (primaryType_inStep hself) rfl fun _ ht => .bounded fun _ _ => arraysLoop_inStep rfl ht

omit hself in
/-- Parts that are kept together if there is more than one. -/
theorem members_inStep {item item' : Step (Option TypeExpr)} {sep : Punct}
    {build build' : List TypeExpr → TypeExpr} (hitem : p.Advances .type k item item')
    (hmove : ∀ ts, (build ts).move p.move = build' (ts.map (TypeExpr.move p.move)))
    (hproper : ∀ ts, (∀ t ∈ ts, AllProper t.kinds) → AllProper (build ts).kinds) :
    p.Advances .type k (do return (← chain sep item).map (combined build))
      (do return (← chain sep item').map (combined build')) := by
  refine .bind_any (chain_inStep hitem) rfl fun ms hms => ?_
  rcases ms with _ | ⟨m, _ | ⟨m', ms⟩⟩
  · exact .pure (hmove _) fun hc => hproper _ (hms hc)
  · exact .pure rfl fun hc => hms hc m (List.mem_singleton.2 rfl)
  · exact .pure (hmove _) fun hc => hproper _ (hms hc)

theorem intersectionType_inStep :
    p.Advances .type (k + 1) (intersectionType self) (intersectionType self') :=
  .peek fun _ _ _ => .of_advances (members_inStep (arrayType_inStep hself)
    (by simp [TypeExpr.move]) (by simp))

theorem unionType_inStep : p.Advances .type (k + 1) (unionType self) (unionType self') :=
  .peek fun _ _ _ => .of_advances (.accept_any fun _ =>
    members_inStep (intersectionType_inStep hself) (by simp [TypeExpr.move]) (by simp))

theorem type_inStep : p.Advances .type (k + 1) (type self) (type self') := by
  have hextends : (TokenKind.word "extends").Proper :=
    (by decide : Text.isIdentifier "extends" = true)
  refine .bind_any (unionType_inStep hself) rfl fun tested htested => .peek fun word s _ => ?_
  rw [Token.isWord_move]
  refine both_ite (fun hword => ?_) fun _ => .of_follows (.pure rfl htested)
  -- with `extends` taken, the types of both branches are read from fewer tokens
  refine .advance (by rw [isWord_iff.1 hword]; simp) ?_
  refine .take (unionType_inStep hself).lower rfl fun bound hbound => ?_
  refine .take .expect rfl fun _ _ => ?_
  refine .take hself.type rfl fun a ha => .take .expect rfl fun _ _ => ?_
  refine .take hself.type rfl fun b hb => .pure rfl fun hc => ?_
  simpa [hextends] using ⟨htested hc, hbound hc, ha hc, hb hc⟩

/-! ### Members -/

theorem fieldSuffixes_inStep {start : Token} {words : List String} {name : String}
    {optional definite : Bool} (hdefinite : optional = true → definite = false) :
    p.Follows .field (k + 1)
      (do let some type ← typeSuffix self | return none
          return (← valueSuffix self).map fun init =>
            { loc := start.loc, name, type, optional, static := words.contains "static"
              readOnly := words.contains "readonly", definite, init })
      (do let some type ← typeSuffix self' | return none
          return (← valueSuffix self').map fun init =>
            { loc := p.move start.loc, name, type, optional, static := words.contains "static"
              readOnly := words.contains "readonly", definite, init }) :=
  .bind (typeSuffix_inStep hself) rfl fun _ htype =>
    .bind (valueSuffix_inStep hself) rfl fun _ hinit => .pure rfl fun hc =>
      ⟨hdefinite, htype hc, hinit hc⟩

theorem field_inStep : p.Advances .field (k + 1) (field self) (field self') := by
  unfold field
  refine .peek fun start s _ => .of_advances ?_
  refine .after (.bounded fun n _ => memberWords_inStep) rfl ?_
  refine fun words _ => .bind_any .expectMemberName rfl fun name _ => .accept_any fun optional => ?_
  dsimp only
  -- a `!` is looked for only where no `?` was found, and the rest is the same either way
  refine both_ite (fun _ => ?_) fun hoptional => .accept_any fun definite =>
    fieldSuffixes_inStep hself fun h => absurd h hoptional
  rw [pure_bind, pure_bind]
  exact fieldSuffixes_inStep hself fun _ => rfl

theorem method_inStep : p.Advances (.moved Method.move) (k + 1) (method self) (method self') := by
  unfold method
  refine .peek fun start s _ => .of_advances ?_
  refine .after (.bounded fun n _ => memberWords_inStep) rfl ?_
  refine fun words _ => .bind_any .expectMemberName rfl fun name _ => ?_
  refine .take .expect rfl fun _ _ => .take (params_inStep hself) rfl fun ps _ => ?_
  refine .bind (typeSuffix_inStep hself) rfl fun result _ => ?_
  exact .done (by simp [Method.move])

theorem typeParam_inStep :
    p.Advances (.moved TypeParam.move) (k + 1) (typeParam self) (typeParam self') := by
  refine .bind_any .expectWord rfl fun name _ => ?_
  exact .accept (.take hself.type rfl fun _ _ => .done rfl) (.done rfl)

end Rules

end Pass

end Componentry.Snippet

namespace Componentry.Entry

open Snippet

/-- What each way to read a snippet gives. -/
def form : (x : Entry) → Form x.Tree
  | .type => .type
  | .expr => .expr
  | .stmt => .stmt
  | .field => .field
  | .param => .param
  | .method => .moved Method.move
  | .typeParam => .moved TypeParam.move

theorem move_form (x : Entry) (f : Location → Location) : x.form.move f = x.move f := by
  cases x <;> rfl

end Componentry.Entry

namespace Componentry.Snippet

/-! ## The grammar -/

/-- The grammar that falls back on `g` once it has taken a token. -/
def Grammar.unrolled (g : Grammar) : Grammar :=
  ⟨Snippet.expression g, Snippet.unary g, Snippet.statement g, Snippet.type g⟩

theorem grammar_succ (n : Nat) : grammar (n + 1) = (grammar n).unrolled := rfl

namespace Pass

variable {p : Pass} {k n : Nat} {g g' : Grammar}

theorem Rules.unrolled (h : p.Rules k g g') : p.Rules (k + 1) g.unrolled g'.unrolled :=
  ⟨expression_inStep h, unary_inStep h, statement_inStep h, type_inStep h⟩

/-- Grammars go in step on all lists of fewer tokens than both are unrolled. -/
theorem grammar_inStep (p : Pass) {n' : Nat} (hk : k ≤ n) (hk' : k ≤ n') :
    p.Rules k (grammar n) (grammar n') := by
  -- with no token left to read there is nothing to show, however little the grammars are unrolled
  induction k generalizing n n' with
  | zero => exact ⟨by simp [Advances], by simp [Advances], by simp [Advances], by simp [Advances]⟩
  | succ k ih =>
    obtain ⟨n, rfl⟩ := Nat.exists_eq_add_of_le' hk
    obtain ⟨n', rfl⟩ := Nat.exists_eq_add_of_le' hk'
    have hself : p.Rules k (grammar (n + k)) (grammar (n' + k)) := ih (by omega) (by omega)
    rw [← Nat.add_assoc, ← Nat.add_assoc, grammar_succ, grammar_succ]
    exact hself.unrolled

theorem Rules.entry (h : p.Rules k g g') (x : Entry) :
    p.Advances x.form (k + 1) (x.rule g) (x.rule g') := by
  cases x with
  | type => exact type_inStep h
  | expr => exact expression_inStep h
  | stmt => exact statement_inStep h
  | field => exact field_inStep h
  | param => exact param_inStep h
  | method => exact method_inStep h
  | typeParam => exact typeParam_inStep h

end Pass

end Componentry.Snippet
