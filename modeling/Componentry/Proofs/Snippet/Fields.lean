import Componentry.Emit.Source
import Componentry.Proofs.Snippet.RoundTrip

/-!
# Printed fields

A field is printed with the words and marks that it was declared with, and read back from its printed
form if its name is a word (`field_reread`). The words in front of it are told from its name by what
follows: a word is in front of the name only if a name comes next, so that a field may be called
`static` or `readonly`.

A name that was read from a quoted text is printed as it is, without the quotes, and the field is
not read back.
-/

namespace Componentry

open Snippet Text List

variable {cs : List Chunk} {next : List Char}

namespace Field

/-- The field without its locations. -/
def bare (f : Field) : Field :=
  { f with loc := .nowhere, type := TypeExpr.bare? f.type, init := Expr.bare? f.init }

/-- The words in front of a printed field. -/
def words (f : Field) : List String :=
  (if f.static then ["static"] else []) ++ if f.readOnly then ["readonly"] else []

/-- The mark after its name, if there is one. -/
def marks (f : Field) : List Punct :=
  if f.optional then [.question] else if f.definite then [.bang] else []

/-- What is declared after the name and its mark. -/
def tail (f : Field) : List Chunk := TypeExpr.chunksSuffix f.type ++ Expr.chunksInit f.init

/-- The chunks of a field. -/
def chunks (f : Field) : List Chunk :=
  f.words.flatMap (fun w => [.word w, .blank]) ++ .word f.name :: f.marks.map .mark ++ f.tail

/-- What its tokens are. -/
def kinds (f : Field) : List TokenKind :=
  f.words.map .word ++ .word f.name ::
    (f.marks.map .punct ++ (TypeExpr.suffixKinds f.type ++ Expr.initKinds f.init))

theorem print_toList (f : Field) : f.print.toList = charsOf f.chunks := by
  obtain ⟨_, name, type, optional, static, readOnly, definite, init⟩ := f
  cases static <;> cases readOnly <;> cases optional <;> cases definite <;>
    simp [print, chunks, words, marks, tail, TypeExpr.printSuffix_toList,
      Expr.printInit_toList, Punct.spelling]

theorem kindsOf_chunks (f : Field) : kindsOf f.chunks = f.kinds := by
  have hwords : ∀ ws : List String,
      kindsOf (ws.flatMap fun w => [.word w, .blank]) = ws.map .word := by
    intro ws
    induction ws with
    | nil => rfl
    | cons w ws ih => simpa using ih
  simp [chunks, kinds, tail, hwords]

end Field

/-! ## Scanning -/

theorem Laid.words {ws : List String} (hws : ∀ w ∈ ws, isIdentifier w = true)
    (h : Laid cs next) : Laid (ws.flatMap (fun w => [.word w, .blank]) ++ cs) next := by
  induction ws with
  | nil => exact h
  | cons w ws ih =>
    obtain ⟨hw, hws⟩ := forall_mem_cons.1 hws
    exact ⟨Chunk.scans_word hw (soft_cons (by decide) (by decide)), Chunk.scans_blank _, ih hws⟩

namespace Field

variable {f : Field}

theorem words_subset (f : Field) : ∀ w ∈ f.words, w ∈ ["static", "readonly"] := by
  unfold words
  cases f.static <;> cases f.readOnly <;> decide

theorem isIdentifier_words : ∀ w ∈ f.words, isIdentifier w = true := by
  have hall : ∀ w ∈ ["static", "readonly"], isIdentifier w = true := by decide
  exact fun w hw => hall w (f.words_subset w hw)

theorem isModifier_words : ∀ w ∈ f.words, modifierWords.contains w = true := by
  have hall : ∀ w ∈ ["static", "readonly"], modifierWords.contains w = true := by decide
  exact fun w hw => hall w (f.words_subset w hw)

/-- Neither a type nor a value is written with `=` as its first character. -/
theorem tail_head (f : Field) : (charsOf f.tail).head? ≠ some '=' := by
  unfold tail
  cases f.type <;> cases f.init <;> simp [TypeExpr.chunksSuffix, Expr.chunksInit, Punct.spelling]

/-- The chunks of a field that is named by a word are scanned one by one. -/
theorem laid (hname : isIdentifier f.name = true) (hproper : Proper f.tail) : Laid f.chunks [] := by
  have htail : Laid f.tail [] :=
    Legible.append (TypeExpr.legibleSuffix _) (Expr.legibleInit _) (Expr.detached_init _) hproper []
      soft_nil
  have hsoft : Soft (charsOf f.tail ++ []) := by
    unfold tail
    rw [charsOf_append, append_assoc]
    exact TypeExpr.detached_suffix _ hproper.left _
      (Expr.detached_init _ hproper.right _ soft_nil)
  unfold chunks
  rw [append_assoc]
  refine Laid.words isIdentifier_words ?_
  unfold marks
  split
  · exact ⟨Chunk.scans_word hname (soft_cons (by decide) (by decide)),
      Chunk.scans_mark fun c _ => by simp [Punct.clashes], htail⟩
  · split
    · refine ⟨Chunk.scans_word hname (soft_cons (by decide) (by decide)),
        Chunk.scans_mark fun c hc => ?_, htail⟩
      rw [append_nil] at hc
      rw [Punct.clashes, mem_singleton]
      rintro rfl
      exact f.tail_head hc
    · exact ⟨Chunk.scans_word hname hsoft, htail⟩

end Field

/-! ## Reading -/

section

variable {β : Type} {ks : List TokenKind} {k : TokenKind} {name : String} {Q : β → Prop}

/-- The words in front of a member, up to a name that no other name follows. -/
theorem Snippet.Reads.memberWords (hnext : ∀ t : Token, t.kind = ks.headD k → memberName? t = none)
    {ws : List String} (hws : ∀ w ∈ ws, modifierWords.contains w = true) {n : Nat}
    (hn : ws.length < n) {f : Option (List String) → Step (Option β)}
    (hf : Reads (f (some ws)) (.word name :: ks) k Q) :
    Reads (memberWords n >>= f) (ws.map .word ++ .word name :: ks) k Q := by
  induction ws generalizing n f with
  | nil =>
    obtain ⟨n, rfl⟩ : ∃ m, n = m + 1 := ⟨n - 1, by omega⟩
    rw [Snippet.memberWords, bind_assoc]
    refine .peek fun t ht => ?_
    rw [bind_assoc]
    refine .peekSecond fun second hsecond => ?_
    simp only [ht, hnext second hsecond, Option.isSome_none, Bool.and_false, Bool.false_eq_true,
      if_false]
    exact hf
  | cons w ws ih =>
    obtain ⟨hw, hws⟩ := forall_mem_cons.1 hws
    obtain ⟨n, rfl⟩ : ∃ m, n = m + 1 := ⟨n - 1, by simp only [length_cons] at hn; omega⟩
    rw [Snippet.memberWords, bind_assoc]
    refine .peek fun t ht => ?_
    rw [bind_assoc]
    refine .peekSecond fun second hsecond => ?_
    change t.kind = .word w at ht
    have hsome : (memberName? second).isSome = true := by
      unfold memberName?
      rw [hsecond]
      cases ws <;> rfl
    simp only [ht, hw, hsome, Bool.and_self, if_true, bind_assoc, pure_bind]
    refine .advance (by simp) fun _ _ => ih hws ?_ hf
    simp only [length_cons] at hn
    omega

/-- No mark that may follow the name of a field is the name of a member. -/
theorem memberName?_eq_none {t : Token}
    (h : t.kind ∈ [.punct .question, .punct .bang, .punct .colon, .punct .assign, .done]) :
    memberName? t = none := by
  unfold memberName?
  generalize t.kind = x at h
  fin_cases h <;> rfl

theorem Field.head_marks {f : Field} {xs : List TokenKind} (h : ks.headD k ∈ xs) :
    (f.marks.map TokenKind.punct ++ ks).headD k ∈ .punct .question :: .punct .bang :: xs := by
  unfold marks
  split
  · simp
  · split
    · simp
    · exact mem_cons_of_mem _ (mem_cons_of_mem _ h)

/-- The mark after the name of a field. -/
theorem Field.reads_marks {f : Field} (hmark : f.optional = true → f.definite = false)
    (hks : ks.headD k ∉ [TokenKind.punct .question, .punct .bang])
    {g : Bool → Bool → Step (Option β)} (hg : Reads (g f.optional f.definite) ks k Q) :
    Reads (do let optional ← accept .question
              let definite ← if optional then pure false else accept .bang
              g optional definite) (f.marks.map .punct ++ ks) k Q := by
  obtain ⟨hquestion, hbang⟩ : ks.headD k ≠ .punct .question ∧ ks.headD k ≠ .punct .bang := by
    simpa using hks
  unfold marks
  cases hoptional : f.optional with
  | true =>
    rw [hoptional, hmark hoptional] at hg
    exact .accept hg
  | false =>
    rw [hoptional] at hg
    cases hdefinite : f.definite with
    | true =>
      rw [hdefinite] at hg
      exact .accept_not (by simp) (.accept hg)
    | false =>
      rw [hdefinite] at hg
      exact .accept_not hquestion (.accept_not hbang hg)

/-- The tokens of a field with a faithfully printed type and value are read as the field. -/
theorem Field.reads {f : Field} (hname : isIdentifier f.name = true)
    (hmark : f.optional = true → f.definite = false)
    (htype : TypeExpr.fits? f.type = true) (hinit : Expr.fits? f.init = true) {n : Nat}
    (hn : f.kinds.length ≤ n) :
    Reads (field (grammar n)) f.kinds .done fun f' => f'.bare = f.bare := by
  have hword : TokenKind.word f.name = keyKind f.name := (if_pos hname).symm
  have hinitial : (Expr.initKinds f.init).headD .done ∈ [TokenKind.punct .assign, .done] := by
    cases f.init <;> simp [Expr.initKinds]
  have htail : (TypeExpr.suffixKinds f.type ++ Expr.initKinds f.init).headD .done ∈
      [TokenKind.punct .colon, .punct .assign, .done] := by
    cases f.type with
    | none => exact mem_cons_of_mem _ hinitial
    | some t => exact mem_cons_self ..
  have hmarks : ∀ x ∈ [TokenKind.punct .colon, .punct .assign, .done],
      x ∉ [TokenKind.punct .question, .punct .bang] := by decide
  have hstatic : f.words.contains "static" = f.static ∧
      f.words.contains "readonly" = f.readOnly := by
    unfold words
    cases f.static <;> cases f.readOnly <;> decide
  simp only [kinds, length_append, length_cons] at hn
  unfold kinds
  refine .peek fun start _ => .bounded_bind fun m hm => .memberWords ?_ ?_ ?_ ?_
  · intro t ht
    refine memberName?_eq_none (?_ : t.kind ∈ _)
    rw [ht]
    exact head_marks htail
  · exact isModifier_words
  · simp only [length_append, length_map, length_cons] at hm
    omega
  rw [hword]
  refine .expectMemberName (by simp [isPlainKey, hname]) (reads_marks hmark ?_ ?_)
  · exact hmarks _ htail
  refine .bind (.typeSuffix ?_ ?_) fun type' htype' => ?_
  · intro h
    rw [h] at hinitial
    revert hinitial
    decide
  · intro u hu
    rw [hu] at htype hn
    simp only [TypeExpr.suffixKinds, length_cons] at hn
    refine u.rereads.inner htype (by omega) ?_
    generalize (Expr.initKinds f.init).headD .done = next at hinitial
    fin_cases hinitial <;> rfl
  refine Reads.map (Reads.valueSuffix (by simp) ?_) fun init' hinit' => ?_
  · intro e he
    rw [he] at hinit hn
    simp only [Expr.initKinds, length_cons] at hn
    exact e.rereads.inner hinit (by omega) rfl
  · rw [bare, bare, htype', hinit', hstatic.1, hstatic.2]

end

/-- A field that was read, is named by a word and prints its type and its value faithfully is read
back, up to locations. -/
theorem field_reread {base : Location} {source : String} {f : Field}
    (hread : read field base source = .ok f) (hname : isIdentifier f.name = true)
    (htype : TypeExpr.fits? f.type = true) (hinit : Expr.fits? f.init = true) (base' : Location) :
    ∃ f', read field base' f.print = .ok f' ∧ f'.bare = f.bare := by
  obtain ⟨hmark, htypes, hinits⟩ := Entry.proper_of_read .field hread
  have hproper : Proper f.tail := by
    unfold Proper Field.tail
    rw [kindsOf_append, TypeExpr.kindsOf_chunksSuffix, Expr.kindsOf_chunksInit]
    exact AllProper.append_iff.2 ⟨htypes, hinits⟩
  refine read_of_laid f.print_toList (Field.laid hname hproper) (fun n hn => ?_) base'
  rw [Field.kindsOf_chunks] at hn ⊢
  exact Field.reads hname hmark htype hinit hn

theorem field_reread_static : ∃ f, read field .start
    "private static readonly static!: Map<string, T[]> = new Door(x)" = .ok f ∧
      f.name = "static" ∧ ∃ f', read field .start f.print = .ok f' ∧ f'.bare = f.bare := by
  obtain ⟨f, hread, h⟩ : ∃ f, read field .start
      "private static readonly static!: Map<string, T[]> = new Door(x)" = .ok f ∧
        (f.name == "static" && TypeExpr.fits? f.type && Expr.fits? f.init) = true :=
    exists_ok (by decide +kernel)
  simp only [Bool.and_eq_true, beq_iff_eq] at h
  exact ⟨f, hread, h.1.1, field_reread hread (by rw [h.1.1]; decide) h.1.2 h.2 .start⟩

/-- A name that is no word is printed without its quotes. -/
theorem field_reread_quoted : ∃ f, read field .start "\"a b\": T" = .ok f ∧
    f.print = "a b: T" ∧ ∀ f', read field .start f.print ≠ .ok f' := by
  obtain ⟨f, hread, hprint⟩ : ∃ f, read field .start "\"a b\": T" = .ok f ∧
      (f.print == "a b: T") = true := exists_ok (by decide +kernel)
  rw [beq_iff_eq] at hprint
  refine ⟨f, hread, hprint, fun f' h => ?_⟩
  have hrefused : (read field .start "a b: T").isOk = false := by decide +kernel
  rw [hprint] at h
  rw [h] at hrefused
  cases hrefused

end Componentry
