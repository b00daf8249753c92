import Componentry.Proofs.Snippet.Rules

/-!
# What the rules for types and statements read

The same for types, parameters, arrow functions and statements. `TypeSlot.stops` are the tokens
that cannot follow a type in its slot, since the slot would take them in.
-/

namespace Componentry.Snippet

open List

attribute [local simp] Expr.Same Expr.bare Expr.bare? Expr.bareAll_eq ArrowBody.Same ArrowBody.bare
  Stmt.Same Stmt.bare Stmt.bareAll_eq TypeExpr.Same TypeExpr.bare TypeExpr.bare? TypeExpr.bareAll_eq
  PropertyType.Same PropertyType.bare PropertyType.bareAll_eq Param.Same Param.bare Param.bareAll_eq

variable {w name : String} {n : Nat} {v : Option Expr} {t : Option TypeExpr} {e : Expr}
  {ss : List Stmt} {ws : List String} {ps : List Param}

variable {α β : Type} {self : Grammar} {ks ls : List TokenKind} {k : TokenKind}

/-! ## Items with a mark between them -/

section Chains

variable {item : Parse α} {kinds : β → List TokenKind} {good : β → α → Prop} {sep : Punct}

/-- The tokens of further items, each after the mark. -/
def followerKinds (sep : Punct) (kss : List (List TokenKind)) : List TokenKind :=
  kss.flatMap (.punct sep :: ·)

theorem followerKinds_cons (sep : Punct) (ks : List TokenKind) (kss : List (List TokenKind)) :
    followerKinds sep (ks :: kss) = .punct sep :: (ks ++ followerKinds sep kss) := flatMap_cons

theorem separated_cons (sep : Punct) (ks : List TokenKind) (kss : List (List TokenKind)) :
    separated sep (ks :: kss) = ks ++ followerKinds sep kss := by
  induction kss generalizing ks with
  | nil => rw [separated_singleton, followerKinds, flatMap_nil, append_nil]
  | cons ls more ih =>
    rw [separated_cons_cons, ih, followerKinds_cons]

theorem Reads.followers (hk : k ≠ .punct sep) : ∀ (xs : List β) (n : Nat),
      (followerKinds sep (xs.map kinds)).length < n →
      (∀ x ∈ xs.dropLast, Reads item (kinds x) (.punct sep) (good x)) →
      (∀ x ∈ xs.getLast?, Reads item (kinds x) k (good x)) →
      Reads (followers sep item n) (followerKinds sep (xs.map kinds)) k (Forall₂ good xs)
  | _, 0, hn, _, _ => absurd hn (Nat.not_lt_zero _)
  | [], n + 1, _, _, _ => .accept_not hk (.pure .nil)
  | [x], n + 1, hn, _, hlast => by
    rw [map_cons, followerKinds_cons, length_cons, length_append] at hn
    refine .accept (.bind (hlast x rfl) fun a ha => ?_)
    exact .map (.followers hk [] n (by omega) nofun nofun) fun as has => .cons ha has
  | x :: y :: xs, n + 1, hn, hitem, hlast => by
    rw [map_cons, followerKinds_cons, length_cons, length_append] at hn
    refine .accept (.bind (hitem x (mem_cons_self ..)) fun a ha => ?_)
    exact .map (.followers hk (y :: xs) n (by omega)
      (fun z hz => hitem z (mem_cons_of_mem _ hz)) hlast) fun as has => .cons ha has

/-- One or more items, where the last is followed by something else. -/
theorem Reads.chain {xs : List β} (hk : k ≠ .punct sep) (hxs : xs ≠ [])
    (hitem : ∀ x ∈ xs.dropLast, Reads item (kinds x) (.punct sep) (good x))
    (hlast : ∀ x ∈ xs.getLast?, Reads item (kinds x) k (good x)) :
    Reads (chain sep item) (separated sep (xs.map kinds)) k (Forall₂ good xs) := by
  cases xs with
  | nil => exact absurd rfl hxs
  | cons x xs =>
    rw [map_cons, separated_cons]
    cases xs with
    | nil =>
      refine .bind (hlast x rfl) fun a ha => .map (.bounded fun n hn =>
        Reads.followers hk [] n hn nofun nofun) fun as has => .cons ha has
    | cons y ys =>
      refine .bind (hitem x (mem_cons_self ..)) fun a ha => .map
        (.bounded fun n hn => .followers hk (y :: ys) n hn
          (fun z hz => hitem z (mem_cons_of_mem _ hz)) hlast) fun as has => .cons ha has

end Chains

/-! ## Parameters -/

/-- The token is no word. -/
def notWord : TokenKind → Bool
  | .word _ => false
  | _ => true

theorem Reads.modifiers_none {f : Option (Option Modifier) → Step (Option β)} {Q : β → Prop}
    (hn : 0 < n) (hnext : notWord (ks.headD k) = true)
    (hf : Reads (f (some none)) (.word w :: ks) k Q) :
    Reads (modifiers n >>= f) (.word w :: ks) k Q := by
  obtain ⟨n, rfl⟩ : ∃ m, n = m + 1 := ⟨n - 1, by omega⟩
  rw [modifiers, bind_assoc]
  refine .peek fun t ht => ?_
  rw [bind_assoc]
  refine .peekSecond fun t' ht' => ?_
  rw [headD_cons] at ht
  split
  · rename_i v hw hw'
    rw [← ht', hw'] at hnext
    cases hnext
  · exact hf

/-- The access word in front of a parameter. -/
theorem Reads.modifiers {f : Option (Option Modifier) → Step (Option β)} {Q : β → Prop}
    {m : Option Modifier} (hn : 2 ≤ n) (hnext : notWord (ks.headD k) = true)
    (hf : Reads (f (some m)) (.word w :: ks) k Q) :
    Reads (modifiers n >>= f) (Modifier.kinds m ++ .word w :: ks) k Q := by
  cases m with
  | none => exact .modifiers_none (by omega) hnext hf
  | some m =>
    obtain ⟨n, rfl⟩ : ∃ m, n = m + 1 := ⟨n - 1, by omega⟩
    rw [Snippet.modifiers, bind_assoc]
    refine .peek fun t ht => ?_
    rw [bind_assoc]
    refine .peekSecond fun t' ht' => ?_
    rw [Modifier.kinds, cons_append, headD_cons] at ht
    change t'.kind = .word w at ht'
    have hm : Modifier.ofWord? m.spelling = some m := by cases m <;> rfl
    simp only [ht, ht', hm, bind_assoc, pure_bind]
    refine .advance (by simp) fun _ _ => ?_
    exact .modifiers_none (by omega) hnext hf

theorem Reads.typeSuffix (hk : k ≠ .punct .colon)
    (h : ∀ u ∈ t, Reads self.type u.kinds k u.Same) :
    Reads (typeSuffix self) (TypeExpr.suffixKinds t) k fun t' =>
      TypeExpr.bare? t' = TypeExpr.bare? t := by
  cases t with
  | none => exact .accept_not hk (.pure rfl)
  | some u =>
    exact .accept (.map (h u rfl) fun u' hu => by simp [hu])

theorem Reads.valueSuffix (hk : k ≠ .punct .assign)
    (h : ∀ e ∈ v, Reads self.expression e.kinds k e.Same) :
    Reads (valueSuffix self) (Expr.initKinds v) k fun v' => Expr.bare? v' = Expr.bare? v := by
  cases v with
  | none => exact .accept_not hk (.pure rfl)
  | some e =>
    exact .accept (.map (h e rfl) fun e' he => by simp [he])

/-- What may be left out, and whether it is. -/
theorem Reads.optional {f : Bool → Step (Option β)} {Q : β → Prop} {optional : Bool}
    (hk : ks.headD k ≠ .punct .question) (hf : Reads (f optional) ks k Q) :
    Reads (Snippet.accept .question >>= f) (optionalKinds optional ++ ks) k Q := by
  cases optional with
  | true => exact .accept hf
  | false => exact .accept_not hk hf

theorem Reads.param (loc : Location) {m : Option Modifier} {optional : Bool}
    (hk : k = .punct .comma ∨ k = .punct .rparen)
    (h : ∀ u ∈ t, Reads self.type u.kinds k u.Same) :
    Reads (param self) (Param.mk loc m w optional t).kinds k
      (Param.mk loc m w optional t).Same := by
  rw [Param.kinds_mk, append_assoc, cons_append]
  have hnext : (TypeExpr.suffixKinds t).headD k ∉
      [TokenKind.punct .question, .punct .assign] ∧
      notWord ((TypeExpr.suffixKinds t).headD k) = true := by
    cases t with
    | none => rcases hk with rfl | rfl <;> exact ⟨by decide, rfl⟩
    | some u => exact ⟨by simp [TypeExpr.suffixKinds], rfl⟩
  refine .peek fun start _ => .bounded_bind fun n hn => ?_
  refine .modifiers ?_ ?_ ?_
  · rw [length_append, length_cons] at hn
    omega
  · cases optional with
    | true => rfl
    | false => exact hnext.2
  · refine .expectWord_bind ?_
    refine .optional (fun h => hnext.1 (h ▸ mem_cons_self ..)) ?_
    rw [← append_nil (TypeExpr.suffixKinds t)]
    refine .bind (.typeSuffix ?_ h) fun t' ht => ?_
    · rcases hk with rfl | rfl <;> simp
    · refine .peek fun next hnext => ?_
      rw [isPunct_of_ne (by rw [hnext]; rcases hk with rfl | rfl <;> simp)]
      exact .pure (by simp [ht])

theorem Reads.params
    (h : ∀ p ∈ ps, ∀ mark ∈ [Punct.comma, .rparen],
      Reads (Snippet.param self) p.kinds (.punct mark) p.Same) :
    Reads (params self) (separated .comma (ps.map Param.kinds) ++ [.punct .rparen]) k fun ps' =>
      ps'.map Param.bare = ps.map Param.bare :=
  (Reads.listed (by decide) rfl (fun p _ => Starts.param p) h).mono fun _ => map_bare_eq

/-! ## Named types -/

/-- A name with further words after dots. -/
def joined (name : String) (ws : List String) : String := ws.foldl (fun s w => s ++ "." ++ w) name

theorem Reads.dottedLoop (hk : k ≠ .punct .dot) :
    ∀ (ws : List String) (n : Nat) (name : String),
      (followerKinds .dot (ws.map fun w => [.word w])).length < n →
      Reads (dottedLoop n name) (followerKinds .dot (ws.map fun w => [.word w])) k
        (· = joined name ws)
  | _, 0, _, hn => absurd hn (Nat.not_lt_zero _)
  | [], n + 1, name, _ => by
    refine .peek fun t ht => .peekSecond_nil fun t' => ?_
    split
    · rw [isPunct_of_ne (by rwa [ht])]
      exact .pure rfl
    · exact .pure rfl
  | w :: ws, n + 1, name, hn => by
    rw [map_cons, followerKinds_cons, length_cons, length_append] at hn
    refine .peek_cons fun t ht => .peekSecond fun t' ht' => ?_
    change t'.kind = .word w at ht'
    simp only [ht', isPunct_iff.2 ht, if_true]
    refine .advance nofun fun _ _ => .advance nofun fun _ _ => ?_
    exact .dottedLoop hk ws n _ (by omega)

theorem toList_joined (ws : List String) (w : String) :
    (joined w ws).toList = ['.'].intercalate ((w :: ws).map String.toList) := by
  induction ws generalizing w with
  | nil => simp [joined]
  | cons v ws ih =>
    have hstep : joined w (v :: ws) = joined (w ++ "." ++ v) ws := rfl
    rw [hstep, ih]
    cases ws with
    | nil | cons u ws => simp [intercalate_cons_cons]

/-- A name is its words with dots between them. -/
theorem joined_nameWords (h : nameWords name = w :: ws) : joined w ws = name := by
  rw [← String.toList_inj, toList_joined, ← h, nameWords, map_map]
  have hid : String.toList ∘ String.ofList = id := by
    funext cs
    exact String.toList_ofList
  rw [hid, map_id, intercalate_splitOn]

theorem nameKinds_eq (h : nameWords name = w :: ws) :
    nameKinds name = .word w :: followerKinds .dot (ws.map fun w => [.word w]) := by
  rw [nameKinds, h, map_cons, separated_cons]
  rfl

theorem Reads.reference (loc l : Location) {args : List TypeExpr}
    (hname : nameWords name = w :: ws) (hk : k ∉ [TokenKind.punct .dot, .punct .less])
    (hargs : ∀ t ∈ args, ∀ p ∈ [Punct.comma, .greater], Reads self.type t.kinds (.punct p) t.Same) :
    Reads (reference self l w) (TypeExpr.reference loc name args).kinds k
      (TypeExpr.reference loc name args).Same := by
  rw [mem_cons, mem_singleton, not_or] at hk
  have hloop : ∀ k, k ≠ .punct .dot → Reads (Snippet.bounded fun n => Snippet.dottedLoop n w)
        (followerKinds .dot (ws.map fun w => [.word w])) k (· = name) := by
    intro k hk
    rw [← joined_nameWords hname]
    exact .bounded fun n hn => .dottedLoop hk ws n w hn
  cases args with
  | nil =>
    rw [TypeExpr.kinds_reference_nil, nameKinds_eq hname]
    refine .advance nofun fun _ _ => ?_
    rw [← append_nil (followerKinds _ _)]
    refine .bind (hloop _ hk.1) ?_
    rintro _ rfl
    exact .accept_not hk.2 (.pure rfl)
  | cons a as =>
    rw [TypeExpr.kinds_reference_cons, nameKinds_eq hname, append_assoc, cons_append, cons_append]
    refine .advance nofun fun _ _ => ?_
    refine .bind (hloop _ nofun) ?_
    rintro _ rfl
    refine .accept ?_
    have hclose : TokenKind.punct .greater ≠ .punct .comma := nofun
    have hchain := Reads.chain hclose (cons_ne_nil a as)
      (fun t ht => hargs t (mem_of_mem_dropLast ht) .comma (by simp))
      (fun t ht => hargs t (mem_of_getLast? ht) .greater (by simp))
    exact .bind hchain fun ts hts => .expect (.pure (by simp [map_bare_eq hts]))

/-! ## Types that stand for themselves -/

section PrimaryType

variable {P : TypeExpr → Prop}

theorem Reads.primaryType_reference (loc : Location) {args : List TypeExpr}
    (hname : isTypeName name = true) (hk : k ∉ [TokenKind.punct .dot, .punct .less])
    (hargs : ∀ t ∈ args, ∀ p ∈ [Punct.comma, .greater], Reads self.type t.kinds (.punct p) t.Same) :
    Reads (primaryType self) (TypeExpr.reference loc name args).kinds k
      (TypeExpr.reference loc name args).Same := by
  obtain ⟨w, ws, hwords⟩ := exists_cons_of_ne_nil (nameWords_ne_nil name)
  refine .peek fun t ht => ?_
  have hw : t.kind = .word w := by
    rw [ht]
    cases args with
    | nil => rw [TypeExpr.kinds_reference_nil, nameKinds_eq hwords, headD_cons]
    | cons a as =>
      rw [TypeExpr.kinds_reference_cons, nameKinds_eq hwords, append_assoc, cons_append, headD_cons]
  rw [isTypeName, hwords, headD_cons, decide_eq_true_iff] at hname
  have hread := Reads.reference loc t.loc hwords hk hargs
  split
  all_goals try (rename_i heq; rw [hw] at heq; cases heq)
  · exact absurd (by decide) hname
  · exact absurd (by decide) hname
  · exact absurd (by decide) hname
  · exact hread
  · rename_i hother
    exact absurd hw (hother w)

theorem Reads.primaryType_number (loc : Location) (v : Binary64) :
    Reads (primaryType self) [.number v] k (TypeExpr.literal loc (.number v)).Same := by
  refine .peek_cons fun t ht => ?_
  simp only [ht]
  exact .advance nofun fun _ _ => .pure rfl

theorem Reads.primaryType_negative (loc : Location) (v : Binary64) :
    Reads (primaryType self) [.punct .minus, .number v] k
      (TypeExpr.literal loc (.number v.neg)).Same := by
  refine .peek_cons fun t ht => ?_
  simp only [ht]
  refine .peekSecond fun t' ht' => ?_
  rw [headD_cons] at ht'
  simp only [ht']
  exact .advance nofun fun _ _ => .advance nofun fun _ _ => .pure rfl

theorem Reads.primaryType_literal (loc : Location) {v : Literal} (hv : v.isPlainType = true) :
    Reads (primaryType self) v.kinds k (TypeExpr.literal loc v).Same := by
  cases v with
  | null => cases hv
  | list items => cases hv
  | bool b =>
    cases b
    all_goals
      refine .peek_cons fun t ht => ?_
      simp only [ht]
      exact .advance nofun fun _ _ => .pure rfl
  | text s =>
    refine .peek fun t ht => ?_
    change t.kind = .quoted (Text.reread s) at ht
    rw [Text.reread_of_isPlain hv] at ht
    simp only [ht]
    exact .advance (x := .quoted _) nofun fun _ _ => .pure rfl
  | number x =>
    cases x with
    | finite negative m q =>
      cases negative with
      | true => exact .primaryType_negative loc (.finite false m q)
      | false => exact .primaryType_number loc _
    | _ => exact .primaryType_number loc _

theorem Reads.primaryType_group (hks : Brackets.parens.Closed ks) (hk : k ≠ .punct .arrow)
    (h : Reads self.type ks (.punct .rparen) P) :
    Reads (primaryType self) (.punct .lparen :: ks ++ [.punct .rparen]) k P := by
  refine .peek_cons fun t ht => ?_
  simp only [ht]
  refine .arrowFollows hks ?_
  rw [headD_nil, beq_false_of_ne hk]
  exact .advance nofun fun _ _ => .bind h fun u hu => .expect (.pure hu)

/-- Parameters in parentheses in front of an arrow. -/
theorem Reads.arrowParams {other : Step (Option β)} {f : Option (List Param) → Step (Option β)}
    {Q : β → Prop}
    (hps : ∀ p ∈ ps, ∀ mark ∈ [Punct.comma, .rparen],
      Reads (Snippet.param self) p.kinds (.punct mark) p.Same)
    (hf : ∀ ps', ps'.map Param.bare = ps.map Param.bare →
      Reads (f (some ps')) (.punct .arrow :: ks) k Q) :
    Reads (do
        if ← Snippet.arrowFollows then
          let _ ← Snippet.advance
          let ps ← Snippet.params self
          f ps
        else other)
      (.punct .lparen :: separated .comma (ps.map Param.kinds) ++
        .punct .rparen :: .punct .arrow :: ks) k Q := by
  refine .arrowFollows (Brackets.followed_parens.separated (by decide)
    (Brackets.followed_parens.params ps)) ?_
  rw [headD_cons, beq_self_eq_true]
  refine .advance nofun fun _ _ => ?_
  change Reads _ (_ ++ .punct .rparen :: .punct .arrow :: ks) k _
  rw [append_cons]
  exact .bind (.params hps) hf

theorem Reads.primaryType_function (loc : Location) {r : TypeExpr}
    (hps : ∀ p ∈ ps, ∀ mark ∈ [Punct.comma, .rparen],
      Reads (Snippet.param self) p.kinds (.punct mark) p.Same)
    (hr : Reads self.type r.kinds k r.Same) :
    Reads (primaryType self) (TypeExpr.function loc ps (some r)).kinds k
      (TypeExpr.function loc ps (some r)).Same := by
  rw [TypeExpr.kinds_function_some]
  refine .peek_cons fun t ht => ?_
  simp only [ht]
  exact .arrowParams hps fun ps' hps' => .expect (.map hr fun r' hr' => by simp [hps', hr'])

theorem Reads.primaryType_tuple (loc : Location) {ts : List TypeExpr}
    (hstarts : ∀ t ∈ ts, Starts t.kinds)
    (h : ∀ t ∈ ts, ∀ p ∈ [Punct.comma, .rbracket], Reads self.type t.kinds (.punct p) t.Same) :
    Reads (primaryType self) (TypeExpr.tuple loc ts).kinds k (TypeExpr.tuple loc ts).Same := by
  rw [TypeExpr.kinds_tuple]
  refine .peek_cons fun t ht => ?_
  simp only [ht]
  refine .advance nofun fun _ _ => ?_
  exact .map (.listed (by decide) rfl hstarts h) fun ts' hts => by simp [map_bare_eq hts]

theorem Reads.expectMemberName {why : Complaint} {f : Option String → Step (Option β)}
    {Q : β → Prop} {key : String} (hkey : Text.isPlainKey key = true)
    (hf : Reads (f (some key)) ks k Q) :
    Reads (expectMemberName why >>= f) (keyKind key :: ks) k Q := by
  unfold Snippet.expectMemberName
  rw [bind_assoc]
  refine .peek_cons fun t ht => ?_
  rcases keyKind_cases hkey with hkind | hkind
  all_goals
    rw [hkind] at ht ⊢
    simp only [memberName?, ht, bind_assoc, pure_bind]
    exact .advance (by simp) fun _ _ => hf

theorem Reads.propertySignature {optional : Bool} {u : TypeExpr}
    (hname : Text.isPlainKey name = true) (h : Reads self.type u.kinds k u.Same) :
    Reads (propertySignature self) (PropertyType.mk name optional u).kinds k
      (PropertyType.mk name optional u).Same := by
  rw [PropertyType.kinds_mk, cons_append]
  refine .peek fun first _ => .peekSecond fun second hsecond => ?_
  have hnone : (memberName? second).isSome = false := by
    unfold memberName?
    rw [hsecond]
    cases optional <;> rfl
  rw [hnone, Bool.and_false]
  refine .peek fun t _ => .expectMemberName hname (.optional nofun ?_)
  exact .accept_not nofun (.expect (.map h fun u' hu => by simp [hu]))

theorem Reads.primaryType_object (loc : Location) {ps : List PropertyType}
    (h : ∀ p ∈ ps, ∀ mark ∈ [Punct.semicolon, .rbrace],
      Reads (Snippet.propertySignature self) p.kinds (.punct mark) p.Same) :
    Reads (primaryType self) (TypeExpr.object loc ps).kinds k (TypeExpr.object loc ps).Same := by
  rw [TypeExpr.kinds_object]
  refine .peek_cons fun t ht => ?_
  simp only [ht]
  refine .advance nofun fun _ _ => ?_
  have hsemicolon : Punct.semicolon ∈ [Punct.semicolon, .comma] := by decide
  exact .bind (.bounded fun n hn => .itemsLoop hsemicolon (by decide) rfl ps n hn
    (fun p _ => .signature p) h) fun ps' hps => .expect (.pure (by simp [map_bare_eq hps]))

theorem Reads.primaryType_query (loc : Location)
    (h : Reads (call self) e.kinds k e.Same) :
    Reads (primaryType self) (TypeExpr.query loc e).kinds k (TypeExpr.query loc e).Same := by
  rw [TypeExpr.kinds_query]
  refine .peek_cons fun t ht => ?_
  simp only [ht]
  exact .advance nofun fun _ _ => .map h fun e' he => by simp [he]

end PrimaryType

/-! ## Operators on types -/

section TypeOperators

variable {P : TypeExpr → Prop} {u : TypeExpr}

theorem Reads.arraysLoop_nil (hn : 0 < n) (hu : P u) (hk : k ≠ .punct .lbracket) :
    Reads (arraysLoop n u) [] k P := by
  obtain ⟨n, rfl⟩ := Nat.exists_eq_add_one.2 hn
  exact .sees_not hk (.peekSecond_nil fun t => .pure hu)

theorem Reads.arraysLoop_cons (h : Reads (arraysLoop n (.array u.loc u)) ks k P) :
    Reads (arraysLoop (n + 1) u) (.punct .lbracket :: .punct .rbracket :: ks) k P := by
  refine .sees ?_
  rw [headD_cons, beq_self_eq_true]
  refine .peekSecond fun t ht => ?_
  rw [headD_cons] at ht
  rw [isPunct_iff.2 ht]
  exact .advance nofun fun _ _ => .advance nofun fun _ _ => h

/-- After tokens of the kinds `ks` a type may go on with `[]`, or with what it cannot take in. -/
def LeadsToArrays (self : Grammar) (ks : List TokenKind) (good : TypeExpr → Prop) : Prop :=
  ∀ (ls : List TokenKind) (k : TokenKind) (P : TypeExpr → Prop),
    ls.headD k ∉ [TokenKind.punct .dot, .punct .less, .punct .arrow] →
    (∀ t n, good t → ls.length < n → Reads (arraysLoop n t) ls k P) →
      Reads (arrayType self) (ks ++ ls) k P

theorem LeadsToArrays.of_primaryType
    (h : ∀ k, k ∉ [TokenKind.punct .dot, .punct .less, .punct .arrow] →
      Reads (primaryType self) ks k P) : LeadsToArrays self ks P :=
  fun _ _ _ hnext hloop => .bind (h _ hnext) fun t ht => .bounded fun n hn =>
    hloop t n ht hn

theorem LeadsToArrays.array (loc : Location)
    (h : LeadsToArrays self ks u.Same) :
    LeadsToArrays self (ks ++ [.punct .lbracket, .punct .rbracket])
      (TypeExpr.array loc u).Same := by
  intro ls k P hnext hloop
  rw [append_assoc]
  refine h _ _ _ (by simp) fun t n ht hn => ?_
  obtain ⟨n, rfl⟩ : ∃ m, n = m + 1 := ⟨n - 1, by omega⟩
  refine .arraysLoop_cons (hloop _ n ?_ ?_)
  · simp only [TypeExpr.Same, TypeExpr.bare, ht]
  · simp only [length_append, length_cons] at hn
    omega

theorem LeadsToArrays.reads (h : LeadsToArrays self ks P)
    (hk : k ∉ [TokenKind.punct .dot, .punct .less, .punct .arrow, .punct .lbracket]) :
    Reads (arrayType self) ks k P := by
  simp only [mem_cons, not_mem_nil, not_or, or_false] at hk
  rw [← append_nil ks]
  refine h _ _ _ ?_ fun t n ht hn => .arraysLoop_nil hn ht hk.2.2.2
  simp only [headD_nil, mem_cons, not_mem_nil, not_or, or_false]
  exact ⟨hk.1, hk.2.1, hk.2.2.1⟩

theorem Reads.arrayType_of_primaryType (hk : k ≠ .punct .lbracket)
    (h : Reads (primaryType self) ks k P) : Reads (arrayType self) ks k P := by
  unfold arrayType
  rw [← append_nil ks]
  exact .bind h fun t ht => .bounded fun n hn => .arraysLoop_nil hn ht hk

/-- One item alone. -/
theorem Reads.chain_single {item : Parse α} {sep : Punct} {P : α → Prop} (hk : k ≠ .punct sep)
    (h : Reads item ks k P) :
    Reads (Snippet.chain sep item) ks k fun as => ∃ a, as = [a] ∧ P a := by
  have hchain : Reads (Snippet.chain sep item) (separated sep ([()].map fun _ => ks)) k
      (Forall₂ (fun _ => P) [()]) :=
    Reads.chain hk nofun nofun fun _ _ => h
  rw [map_singleton, separated_singleton] at hchain
  refine hchain.mono fun as has => ?_
  cases has with
  | cons ha hnil =>
    cases hnil
    exact ⟨_, rfl, ha⟩

theorem Reads.intersectionType_of_arrayType (hk : k ≠ .punct .amp)
    (h : Reads (arrayType self) ks k P) : Reads (intersectionType self) ks k P := by
  refine .peek fun start _ => ?_
  rw [← append_nil ks]
  refine .bind (.chain_single hk h) ?_
  rintro _ ⟨t, rfl, ht⟩
  exact .pure ht

theorem Reads.unionType_of_intersectionType (hks : Starts ks) (hk : k ≠ .punct .pipe)
    (h : Reads (intersectionType self) ks k P) : Reads (unionType self) ks k P := by
  refine .peek fun start _ => .accept_not (hks.head_ne rfl) ?_
  rw [← append_nil ks]
  refine .bind (.chain_single hk h) ?_
  rintro _ ⟨t, rfl, ht⟩
  exact .pure ht

theorem Reads.type_of_unionType (hk : k ≠ .word "extends") (h : Reads (unionType self) ks k P) :
    Reads (Snippet.type self) ks k P := by
  unfold Snippet.type
  rw [← append_nil ks]
  refine .bind h fun t ht => .peek fun word hword => ?_
  rw [isWord_of_ne (by rwa [hword])]
  exact .pure ht

/-- Two or more parts are kept together. -/
theorem Reads.members {item : Parse TypeExpr} {sep : Punct} {build : List TypeExpr → TypeExpr}
    {ms : List TypeExpr} (hms : 2 ≤ ms.length) (hk : k ≠ .punct sep)
    (hitem : ∀ t ∈ ms.dropLast, Reads item t.kinds (.punct sep) t.Same)
    (hlast : ∀ t ∈ ms.getLast?, Reads item t.kinds k t.Same)
    (hbuild : ∀ ts, ts.map TypeExpr.bare = ms.map TypeExpr.bare → P (build ts)) :
    Reads (do return (← Snippet.chain sep item).map (combined build))
      (separated sep (ms.map TypeExpr.kinds)) k P := by
  have hne : ms ≠ [] := by
    rintro rfl
    cases hms
  refine .map (.chain hk hne hitem hlast) fun ts hts => ?_
  have hbare := hbuild ts (map_bare_eq hts)
  cases hts with
  | nil => cases hms
  | cons _ hts =>
    cases hts with
    | nil => simp at hms
    | cons => exact hbare

theorem Reads.intersectionType (loc : Location) {ms : List TypeExpr} (hms : 2 ≤ ms.length)
    (hk : k ≠ .punct .amp)
    (hitem : ∀ t ∈ ms.dropLast, Reads (arrayType self) t.kinds (.punct .amp) t.Same)
    (hlast : ∀ t ∈ ms.getLast?, Reads (arrayType self) t.kinds k t.Same) :
    Reads (intersectionType self) (TypeExpr.intersection loc ms).kinds k
      (TypeExpr.intersection loc ms).Same := by
  rw [TypeExpr.kinds_intersection]
  exact .peek fun start _ => .members hms hk hitem hlast fun ts hts => by simp [hts]

theorem Reads.unionType (loc : Location) {ms : List TypeExpr} (hms : 2 ≤ ms.length)
    (hstarts : Starts (TypeExpr.union loc ms).kinds) (hk : k ≠ .punct .pipe)
    (hitem : ∀ t ∈ ms.dropLast, Reads (Snippet.intersectionType self) t.kinds (.punct .pipe) t.Same)
    (hlast : ∀ t ∈ ms.getLast?, Reads (Snippet.intersectionType self) t.kinds k t.Same) :
    Reads (unionType self) (TypeExpr.union loc ms).kinds k (TypeExpr.union loc ms).Same := by
  refine .peek fun start _ => .accept_not (hstarts.head_ne rfl) ?_
  rw [TypeExpr.kinds_union]
  exact .members hms hk hitem hlast fun ts hts => by simp [hts]

theorem Reads.conditional (loc : Location) {a b c d : TypeExpr}
    (ha : Reads (Snippet.unionType self) a.kinds (.word "extends") a.Same)
    (hb : Reads (Snippet.unionType self) b.kinds (.punct .question) b.Same)
    (hc : Reads self.type c.kinds (.punct .colon) c.Same)
    (hd : Reads self.type d.kinds k d.Same) :
    Reads (Snippet.type self) (TypeExpr.conditional loc a b c d).kinds k
      (TypeExpr.conditional loc a b c d).Same := by
  rw [TypeExpr.kinds_conditional, append_assoc, append_assoc, cons_append, cons_append]
  refine .bind ha fun a' ha' => .peek fun word hword => ?_
  rw [isWord_iff.2 hword]
  refine .advance nofun fun _ _ => .bind hb fun b' hb' => .expect ?_
  exact .bind hc fun c' hc' => .expect (.map hd fun d' hd' => by simp [ha', hb', hc', hd'])

end TypeOperators

/-! ## Arrow functions and statements -/

section Statements

theorem Reads.statementsLoop : ∀ (ss : List Stmt) (n : Nat), (ss.flatMap Stmt.kinds).length < n →
      (∀ s ∈ ss, ∀ k, k ≠ .punct .semicolon → Reads self.statement s.kinds k s.Same) →
      Reads (statementsLoop self n) (ss.flatMap Stmt.kinds) (.punct .rbrace)
        (Forall₂ (fun s s' => s'.bare = s.bare) ss)
  | _, 0, hn, _ => absurd hn (Nat.not_lt_zero _)
  | [], n + 1, _, _ => by
    refine .sees (.isDone ?_)
    rw [flatMap_nil, headD_nil, beq_self_eq_true]
    exact .pure .nil
  | s :: ss, n + 1, hn, h => by
    have hs := Starts.stmt s
    rw [flatMap_cons] at hn ⊢
    rw [length_append] at hn
    refine .sees_not (hs.append.head_ne rfl) (.isDone_not (hs.append.head_ne rfl) ?_)
    refine .accept_not (hs.append.head_ne rfl) ?_
    have hnext : (ss.flatMap Stmt.kinds).headD (.punct .rbrace) ≠ .punct .semicolon := by
      cases ss with
      | nil => exact nofun
      | cons s' ss => exact (Starts.stmt s').append.head_ne rfl
    refine .bind (h s (mem_cons_self ..) _ hnext) fun s' hs' => ?_
    have := hs.length_pos
    exact .map (.statementsLoop ss n (by omega)
      fun t ht => h t (mem_cons_of_mem _ ht)) fun ss' hss => .cons hs' hss

theorem Reads.block
    (h : ∀ s ∈ ss, ∀ k, k ≠ .punct .semicolon → Reads self.statement s.kinds k s.Same) :
    Reads (block self) (.punct .lbrace :: ss.flatMap Stmt.kinds ++ [.punct .rbrace]) k fun ss' =>
      ss'.map Stmt.bare = ss.map Stmt.bare :=
  .expect (.bind (.bounded fun n hn => .statementsLoop ss n hn h)
    fun _ hss => .expect (.pure (map_bare_eq hss)))

theorem Reads.arrowBody_value (hstarts : ks.head? ≠ some (.punct .lbrace)) (hks : Starts ks)
    (h : Reads self.expression ks k e.Same) :
    Reads (arrowBody self) (.punct .arrow :: ks) k (ArrowBody.value e).Same := by
  refine .expect (.sees_not ?_ (.map h fun e' he => by simp [he]))
  obtain ⟨x, more, rfl, -⟩ := hks
  exact fun hx => hstarts (congrArg some hx)

theorem Reads.arrowBody_block
    (h : ∀ s ∈ ss, ∀ k, k ≠ .punct .semicolon → Reads self.statement s.kinds k s.Same) :
    Reads (arrowBody self) (.punct .arrow :: (ArrowBody.block ss).kinds) k
      (ArrowBody.block ss).Same := by
  rw [ArrowBody.kinds_block]
  refine .expect (.sees ?_)
  rw [cons_append, headD_cons, beq_self_eq_true]
  exact .map (.block h) fun ss' hss => by simp [hss]

theorem Reads.expression_arrow (loc : Location) {b : ArrowBody}
    (hps : ∀ p ∈ ps, ∀ mark ∈ [Punct.comma, .rparen],
      Reads (Snippet.param self) p.kinds (.punct mark) p.Same)
    (hb : Reads (arrowBody self) (.punct .arrow :: b.kinds) k b.Same) :
    Reads (expression self) (Expr.arrow loc ps b).kinds k (Expr.arrow loc ps b).Same := by
  rw [Expr.kinds_arrow]
  refine .peek_cons fun t ht => ?_
  simp only [ht]
  exact .arrowParams hps fun ps' hps' => .map hb fun b' hb' => by simp [hps', hb']

theorem Reads.binding (b : Binding) : Reads binding b.kinds k (· = b) := by
  cases b with
  | name n =>
    refine .accept_not nofun (.map Reads.expectWord ?_)
    rintro _ rfl
    rfl
  | elements ns =>
    have hword : ∀ n ∈ ns, ∀ p ∈ [Punct.comma, .rbracket],
        Reads (Snippet.expectWord .bindingName) [.word n] (.punct p) fun w => id w = id n :=
      fun n _ p _ => .expectWord
    refine .accept (.map (.listed (by decide) rfl
      (fun n _ => .cons rfl) hword) fun ns' hns => ?_)
    have heq := map_bare_eq hns
    rw [map_id, map_id] at heq
    rw [heq]

theorem Reads.declaration (loc l : Location) (kind : BindingKind) {b : Binding}
    (ht : ∀ u ∈ t, ∀ p ∈ [Punct.assign, .semicolon], Reads self.type u.kinds (.punct p) u.Same)
    (hv : ∀ e ∈ v, Reads self.expression e.kinds (.punct .semicolon) e.Same) :
    Reads (declaration self l kind)
      (b.kinds ++ TypeExpr.suffixKinds t ++ Expr.initKinds v) (.punct .semicolon)
        (Stmt.bind loc kind b t v).Same := by
  obtain ⟨p, hp, hnext⟩ : ∃ p ∈ [Punct.assign, .semicolon],
      (Expr.initKinds v).headD (.punct .semicolon) = .punct p := by
    cases v with
    | none => exact ⟨.semicolon, by decide, rfl⟩
    | some e => exact ⟨.assign, by decide, rfl⟩
  rw [append_assoc]
  refine .bind (.binding b) ?_
  rintro _ rfl
  refine .bind (.typeSuffix ?_ ?_) fun t' ht' => ?_
  · rw [hnext]
    rintro ⟨⟩
    simp at hp
  · rw [hnext]
    exact fun u hu => ht u hu p hp
  · exact .map (.valueSuffix nofun hv) fun v' hv' => by simp [ht', hv']

theorem Reads.bareStatement_run (loc : Location) (hstarts : e.startsStatement = true)
    (h : Reads (expression self) e.kinds k e.Same) :
    Reads (bareStatement self) e.kinds k (Stmt.run loc e).Same := by
  refine .peek fun t ht => ?_
  obtain ⟨x, more, hks, -⟩ := Starts.expr e
  rw [hks, headD_cons] at ht
  rw [Expr.startsStatement, hks, head?_cons, decide_eq_true_iff] at hstarts
  split
  all_goals try (rename_i heq; rw [ht] at heq; rw [heq] at hstarts; exact absurd (by simp) hstarts)
  exact .map h fun e' he => by simp [he]

theorem Reads.bareStatement_bind (loc : Location) (kind : BindingKind) {b : Binding}
    (ht : ∀ u ∈ t, ∀ p ∈ [Punct.assign, .semicolon], Reads self.type u.kinds (.punct p) u.Same)
    (hv : ∀ e ∈ v, Reads self.expression e.kinds (.punct .semicolon) e.Same) :
    Reads (bareStatement self) (Stmt.bind loc kind b t v).core (.punct .semicolon)
      (Stmt.bind loc kind b t v).Same := by
  cases kind
  all_goals
    refine .peek_cons fun start hstart => ?_
    simp only [hstart]
    exact .advance nofun fun _ _ => .declaration loc start.loc _ ht hv

theorem Reads.bareStatement_yield (loc : Location)
    (hv : ∀ e ∈ v, Reads self.expression e.kinds (.punct .semicolon) e.Same) :
    Reads (bareStatement self) (Stmt.yield loc v).core (.punct .semicolon)
      (Stmt.yield loc v).Same := by
  refine .peek fun start hstart => ?_
  have hreturn : start.kind = .word "return" := by
    rw [hstart]
    cases v <;> rfl
  simp only [hreturn]
  cases v with
  | none =>
    exact .advance (x := .word "return") nofun fun _ _ =>
      Reads.isDone (.sees (.sees (.pure rfl)))
  | some e =>
    refine .advance (x := .word "return") nofun fun _ _ => ?_
    have he := Starts.expr e
    refine .isDone_not (he.head_ne rfl) (.sees_not (he.head_ne rfl) (.sees_not (he.head_ne rfl) ?_))
    exact .map (hv e rfl) fun e' he' => by simp [he']

theorem Reads.bareStatement_block (loc : Location)
    (h : ∀ s ∈ ss, ∀ k, k ≠ .punct .semicolon → Reads self.statement s.kinds k s.Same) :
    Reads (bareStatement self) (Stmt.block loc ss).core k (Stmt.block loc ss).Same := by
  rw [Stmt.core]
  refine .peek_cons fun start hstart => ?_
  simp only [hstart]
  exact .map (.block h) fun ss' hss => by simp [hss]

/-- A semicolon closes a statement that is not a block. -/
theorem Reads.statement {s : Stmt} (hk : k ≠ .punct .semicolon)
    (h : Reads (bareStatement self) s.core (s.closer.headD k) s.Same) :
    Reads (statement self) s.kinds k s.Same := by
  rw [Stmt.kinds_eq]
  refine .bind h fun s' hs => ?_
  cases s with
  | block loc ss => exact .accept_not hk (.pure hs)
  | _ => exact .accept (.pure hs)

end Statements

end Componentry.Snippet
