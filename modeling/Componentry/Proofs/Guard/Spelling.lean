import Componentry.Proofs.Guard.Once
import Componentry.Proofs.Snippet.RoundTrip

/-!
# What the text of a guard says

Guards are shipped as text. Different guards may be printed alike: a literal and a choice of one
literal, or two guards that test nothing, for different reasons. The text still says what a guard
tests: guards of one text accept the same values, whatever the keys in them stand for
(`text_determines_guard`).

A guard is printed as an expression (`Guard.expr`), and printed expressions are read back. Reading
does not give back every quoted text, though: escapes that it does not know stay as written. So it
is applied to the expression in which every quoted text is replaced by its quoted form
(`Expr.Writes`). That form determines the text, so guards of one text are one expression.
-/

namespace Componentry

open Snippet Text List

/-! ## Quoted texts as they are written -/

theorem isIdentifier_quote (s : String) : isIdentifier (quote s) = false := by
  simp [isIdentifier, quote, show isNameStart '"' = false by decide]

theorem isPlain_quote (s : String) : Text.isPlain (quote s) = true := by
  rw [Text.isPlain, all_eq_true, quote, String.toList_ofList, cons_append]
  intro d hd
  obtain rfl | hd := mem_cons.1 hd
  · decide
  · obtain hd | hd := mem_append.1 hd
    · obtain ⟨c, -, hd⟩ := mem_flatMap.1 hd
      rw [isPrintable_quoteChar hd]
      rfl
    · cases mem_singleton.1 hd
      decide

theorem keyText_injective : Function.Injective keyText := by
  intro k l h
  unfold keyText at h
  split at h <;> split at h
  · exact h
  · simp_all [isIdentifier_quote]
  · next hk _ => simp [← h, isIdentifier_quote] at *
  · exact quote_injective h

theorem isPlainKey_keyText (s : String) : isPlainKey (keyText s) = true := by
  unfold keyText isPlainKey
  split <;> simp [*, isPlain_quote]

/-- The chunk with a quoted text as it is written. -/
def Chunk.written : Chunk → Chunk
  | .token (.quoted _) text => .quoted (String.ofList text)
  | c => c

@[simp] theorem Chunk.written_quoted (s : String) :
    (Chunk.quoted s).written = .quoted (quote s) := by
  simp [Chunk.quoted, Chunk.written]

@[simp] theorem Chunk.written_key (k : String) : (Chunk.key k).written = .key (keyText k) := by
  unfold Chunk.key keyText
  split
  · simp [*, Chunk.word, Chunk.written]
  · simp [isIdentifier_quote]

@[simp] theorem Chunk.written_blank : Chunk.blank.written = .blank := rfl

@[simp] theorem Chunk.written_word (w : String) : (Chunk.word w).written = .word w := rfl

@[simp] theorem Chunk.written_mark (p : Punct) : (Chunk.mark p).written = .mark p := rfl

/-- The second expression is the first with quoted texts as they are written, and is read back. -/
structure Expr.Writes (raw e : Expr) : Prop where
  proper : AllProper raw.kinds
  chunks : raw.chunks.map Chunk.written = e.chunks
  fits : e.fits .whole = true
  bare : e.bare = e

/-- Expressions of one text are written alike. -/
theorem Expr.Writes.unique {raw raw' e e' : Expr} (h : raw.Writes e) (h' : raw'.Writes e')
    (htext : raw.print = raw'.print) : e = e' := by
  have hchunks : raw.chunks = raw'.chunks :=
    Laid.unique (raw.legible h.proper [] soft_nil) (raw'.legible h'.proper [] soft_nil)
      (by rw [← raw.print_toList, ← raw'.print_toList, htext])
  have hkinds : e'.kinds = e.kinds := by
    rw [Expr.kinds, Expr.kinds, ← h.chunks, ← h'.chunks, hchunks]
  -- tokens of these kinds, wherever they stand, are read as both expressions
  let ts : List Token := (e.kinds ++ [TokenKind.done]).map (⟨·, [], .start⟩)
  have hts : ts.map Token.kind = e.kinds ++ [.done] := by simp [ts, Function.comp_def]
  have hn : e.kinds.length ≤ ts.length + 1 := by simp [ts]; omega
  obtain ⟨a, ha, hbare⟩ := readTokens_of_reads hts (e.rereads.whole h.fits _ .done hn rfl)
  obtain ⟨b, hb, hbare'⟩ := readTokens_of_reads (hkinds ▸ hts)
    (e'.rereads.whole h'.fits _ .done (hkinds ▸ hn) rfl)
  cases ha.symm.trans hb
  rw [← h.bare, ← h'.bare, ← hbare, ← hbare']

/-! ## Simple literals -/

theorem exists_mem_of_map_eq {α β : Type} {f : α → β} {xs ys : List α} {y : α}
    (h : xs.map f = ys.map f) (hy : y ∈ ys) : ∃ x ∈ xs, f x = f y :=
  mem_map.1 (h ▸ mem_map_of_mem hy)

theorem forall₂_of_map_eq {α β γ : Type} {f : α → β} {R : α → γ → Prop} {xs ys : List α}
    {zs : List γ} (hxs : Forall₂ R xs zs) (heq : xs.map f = ys.map f)
    (hR : ∀ x ∈ xs, ∀ y ∈ ys, f x = f y → ∀ {z}, R x z → R y z) : Forall₂ R ys zs := by
  induction hxs generalizing ys with
  | nil => simp_all
  | cons hx _ ih =>
    cases ys with
    | nil => simp at heq
    | cons y ys =>
      simp only [map_cons, List.cons.injEq, forall_mem_cons] at heq hR
      exact .cons (hR.1.1 heq.1 hx) (ih heq.2 fun x hx y hy => (hR.2 x hx).2 y hy)

/-- The expression that a literal is printed as, with its text changed. -/
def Literal.expr (f : String → String) : Literal → Expr
  | .text s => .literal .nowhere (.text (f s))
  | .number (.finite true m q) =>
    .unary .nowhere .minus (.literal .nowhere (.number (.finite false m q)))
  | v => .literal .nowhere v

theorem Literal.Simple.writes {v : Literal} (h : v.Simple) : (v.expr id).Writes (v.expr quote) := by
  have hproper := h.proper
  cases h with
  | text s =>
    have hchunks : ((Literal.text s).expr id).chunks.map Chunk.written = [.quoted (quote s)] := by
      simp [Literal.expr, Expr.chunks, Literal.chunks]
    exact ⟨hproper, hchunks, isPlain_quote s, rfl⟩
  | _ => exact ⟨hproper, rfl, rfl, rfl⟩

theorem Literal.Simple.expr_inj {v w : Literal} (hv : v.Simple) (hw : w.Simple)
    (h : v.expr quote = w.expr quote) : v = w := by
  cases hv <;> cases hw <;> simp_all [Literal.expr, quote_injective.eq_iff]

theorem Literal.Simple.map_expr_inj {vs ws : List Literal} (hvs : ∀ v ∈ vs, v.Simple)
    (hws : ∀ w ∈ ws, w.Simple) (h : vs.map (Literal.expr quote) = ws.map (Literal.expr quote)) :
    vs = ws := by
  refine (forall₂_eq_eq_eq ▸ forall₂_of_map_eq (forall₂_refl vs) h ?_ : ws = vs).symm
  rintro v hv w hw heq _ rfl
  exact ((hvs v hv).expr_inj (hws w hw) heq).symm

theorem Literal.print_expr (v : Literal) : (v.expr id).print = v.source := by
  unfold Literal.expr
  split <;> simp [Expr.print, Literal.source, parenthesized, Expr.isCompound, UnaryOp.spelling,
    Number.Layout.text]

/-! ## Tests -/

/-- A test of the runtime's library. -/
def Expr.test (name : String) : Expr := .member .nowhere (.name .nowhere "t") name

/-- A test that is made from others. -/
def Expr.testOf (name : String) (args : List Expr) : Expr := .call .nowhere (.test name) args

/-- The second entry is the first with its key and its quoted texts as they are written. -/
structure Property.Writes (raw p : Property) : Prop where
  proper : AllProper raw.kinds
  chunks : raw.chunks.map Chunk.written = p.chunks
  fits : p.fits = true
  bare : p.bare = p

section

variable {α : Type} {l : List α} {name : String}

attribute [local simp] Expr.test Expr.testOf Expr.fits Expr.chunks Expr.bare grouped Expr.isArrow

theorem Expr.Writes.entry {raw e : Expr} (h : raw.Writes e) (k : String) :
    (Property.mk .nowhere k raw).Writes (.mk .nowhere (keyText k) e) := by
  constructor
  · simpa using h.proper
  · simp [Property.chunks, h.chunks]
  · simp [Property.fits, isPlainKey_keyText, h.fits]
  · simp [Property.bare, h.bare]

theorem Expr.Writes.object {f f' : α → Property} (h : ∀ x ∈ l, (f x).Writes (f' x)) :
    (Expr.object .nowhere (l.map f)).Writes (.object .nowhere (l.map f')) := by
  have hall : (Property.chunksAll (l.map f)).map Chunk.written = Property.chunksAll (l.map f') := by
    induction l with
    | nil => rfl
    | cons x l ih => cases l <;> simp_all [Property.chunksAll, (h x mem_cons_self).chunks]
  constructor
  · simpa using fun x hx => (h x hx).proper
  · cases l <;> simp_all
  · simpa [Property.fitsAll_iff] using fun x hx => (h x hx).fits
  · simpa [Property.bareAll_eq] using fun x hx => (h x hx).bare

theorem Expr.Writes.test (hname : isIdentifier name = true) :
    (Expr.test name).Writes (.test name) := by
  have ht : isIdentifier "t" = true := by decide
  constructor <;> simp [TokenKind.Proper, ht, hname]
  rfl

theorem Expr.Writes.testOf {f f' : α → Expr} (hname : isIdentifier name = true)
    (h : ∀ x ∈ l, (f x).Writes (f' x)) :
    (Expr.testOf name (l.map f)).Writes (.testOf name (l.map f')) := by
  have hall : (Expr.chunksAll (l.map f)).map Chunk.written = Expr.chunksAll (l.map f') := by
    induction l with
    | nil => rfl
    | cons x l ih => cases l <;> simp_all [Expr.chunksAll, (h x mem_cons_self).chunks]
  have hproper := (Expr.Writes.test hname).proper
  constructor
  · simpa using ⟨by simpa using hproper, fun x hx => (h x hx).proper⟩
  · simp [hall]
  · simpa [Expr.fitsAll_iff] using ⟨⟨rfl, rfl⟩, fun x hx => (h x hx).fits⟩
  · simpa [Expr.bareAll_eq] using fun x hx => (h x hx).bare

theorem Expr.Writes.testOne {raw e : Expr} (hname : isIdentifier name = true) (h : raw.Writes e) :
    (Expr.testOf name [raw]).Writes (.testOf name [e]) :=
  .testOf (l := [()]) hname fun _ _ => h

end

/-! ## Guards as expressions -/

/-- The guard of a field. -/
def GuardField.guard : GuardField → Guard
  | .mk _ _ g => g

namespace Guard

mutual

/-- The expression that a guard is printed as, with its texts and its keys changed. -/
def expr (q k : String → String) : Guard → Expr
  | .kind tag => .test tag
  | .literal v => .testOf "literal" [v.expr q]
  | .oneOf vs => .testOf "literal" (vs.map (Literal.expr q))
  | .all gs => .testOf "intersection" (exprAll q k gs)
  | .any [] => .test "never"
  | .any (g :: gs) => .testOf "union" (exprAll q k (g :: gs))
  | .shape fs => .testOf "interface" [.object .nowhere (entries q k fs)]
  | .arrayOf g => .testOf "array" [g.expr q k]
  | .tuple gs => .testOf "tuple" (exprAll q k gs)
  | .instanceOf uid => .testOf "instanceOf" [(Literal.text uid).expr q]
  | .ref key => .testOf "ref" [(Literal.text key).expr q]
  | .always _ => .test "any"

def exprAll (q k : String → String) : List Guard → List Expr
  | [] => []
  | g :: gs => g.expr q k :: exprAll q k gs

def entries (q k : String → String) : List GuardField → List Property
  | [] => []
  | f :: fs => entry q k f :: entries q k fs

def entry (q k : String → String) : GuardField → Property
  | .mk name optional g =>
    .mk .nowhere (k name) (if optional then .testOf "optional" [g.expr q k] else g.expr q k)

end

section

attribute [local simp] text textAll textFields textField expr exprAll entries entry Expr.test
  Expr.testOf Expr.print Expr.printAll Property.print Property.printAll parenthesized Expr.isArrow
  Literal.print_expr Literal.source

mutual

theorem text_eq : ∀ g : Guard, g.text = (g.expr id id).print
  | .kind _ | .literal _ | .instanceOf _ | .ref _ | .always _ | .any [] => by simp
  | .oneOf vs => by
    induction vs with
    | nil => simp [String.intercalate]
    | cons v vs ih => cases vs <;> simp_all [String.intercalate_cons_cons]
  | .all gs => by simp [textAll_eq gs]
  | .any (g :: gs) => by simpa using textAll_eq (g :: gs)
  | .tuple gs => by simp [textAll_eq gs]
  | .shape [] => by simp
  | .shape (f :: fs) => by
    rw [← String.toList_inj]
    simp [textFields_eq (f :: fs)]
  | .arrayOf g => by simp [text_eq g]

theorem textAll_eq : ∀ gs : List Guard, textAll gs = Expr.printAll (exprAll id id gs)
  | [] => by simp
  | [g] => by simp [text_eq g]
  | g :: h :: gs => by simpa [text_eq g] using textAll_eq (h :: gs)

theorem textFields_eq : ∀ fs : List GuardField, textFields fs = Property.printAll (entries id id fs)
  | [] => by simp
  | [f] => by simp [textField_eq f]
  | f :: g :: fs => by simpa [textField_eq f] using textFields_eq (g :: fs)

theorem textField_eq : ∀ f : GuardField, textField f = (entry id id f).print
  | .mk name optional g => by cases optional <;> simp [text_eq g]

end

end

@[simp] theorem exprAll_eq (q k : String → String) : ∀ gs, exprAll q k gs = gs.map (expr q k) :=
  eq_map_of_cons rfl fun _ _ => rfl

@[simp] theorem entries_eq (q k : String → String) : ∀ fs, entries q k fs = fs.map (entry q k) :=
  eq_map_of_cons rfl fun _ _ => rfl

/-- The kinds that are tested for. -/
def kindWords : List String :=
  ["string", "number", "boolean", "bigint", "symbol", "undefined", "null", "object", "void"]

/-- A guard that tests for kinds with names of their own and for simple literals. -/
inductive Simple : Guard → Prop
  | kind {tag : String} (h : tag ∈ kindWords) : Simple (.kind tag)
  | literal {v : Literal} (h : v.Simple) : Simple (.literal v)
  | oneOf {vs : List Literal} (h : ∀ v ∈ vs, v.Simple) : Simple (.oneOf vs)
  | all {gs : List Guard} (h : ∀ g ∈ gs, g.Simple) : Simple (.all gs)
  | never : Simple (.any [])
  | any {g : Guard} {gs : List Guard} (h : ∀ r ∈ g :: gs, r.Simple) : Simple (.any (g :: gs))
  | shape {fs : List GuardField} (h : ∀ f ∈ fs, f.guard.Simple) : Simple (.shape fs)
  | arrayOf {g : Guard} (h : g.Simple) : Simple (.arrayOf g)
  | tuple {gs : List Guard} (h : ∀ g ∈ gs, g.Simple) : Simple (.tuple gs)
  | instanceOf (uid : String) : Simple (.instanceOf uid)
  | ref (key : String) : Simple (.ref key)
  | always (reason : String) : Simple (.always reason)

section

variable {follow : String → Value → Bool} {g h : Guard} {v : Value}

theorem Simple.writes (hg : g.Simple) : (g.expr id id).Writes (g.expr quote keyText) := by
  have hkinds : ∀ tag ∈ kindWords, isIdentifier tag = true := by decide
  induction hg with
  | kind htag => exact .test (hkinds _ htag)
  | never | always => exact .test (by decide)
  | literal h => exact .testOne (by decide) h.writes
  | instanceOf s | ref s => exact .testOne (by decide) (Literal.Simple.text s).writes
  | oneOf h => exact .testOf (by decide) fun v hv => (h v hv).writes
  | all _ ih | tuple _ ih | any _ ih =>
    simp only [expr, exprAll_eq]
    exact .testOf (by decide) ih
  | arrayOf _ ih => exact .testOne (by decide) ih
  | shape _ ih =>
    simp only [expr, entries_eq]
    refine .testOne (by decide) (.object ?_)
    rintro ⟨name, optional, g⟩ hf
    cases optional with
    | false => exact (ih _ hf).entry name
    | true => exact (Expr.Writes.testOne (by decide) (ih _ hf)).entry name

attribute [local simp] expr Expr.test Expr.testOf kindWords accepts GuardField.guard

theorem Simple.expr_ne_optional {q k : String → String} {es : List Expr} (hg : g.Simple) :
    g.expr q k ≠ .testOf "optional" es := by
  cases hg <;> simp_all

theorem passes_of_entry {f f' : GuardField} {fields : List (String × Value)} (hf : f.guard.Simple)
    (hf' : f'.guard.Simple) (heq : entry quote keyText f = entry quote keyText f')
    (hguard : ∀ {v}, f.guard.expr quote keyText = f'.guard.expr quote keyText →
      f.guard.accepts follow v = true → f'.guard.accepts follow v = true)
    (hpass : f.Passes follow fields) : f'.Passes follow fields := by
  obtain ⟨name, optional, g⟩ := f
  obtain ⟨name', optional', g'⟩ := f'
  simp only [entry, Property.mk.injEq, true_and, keyText_injective.eq_iff] at heq
  obtain ⟨rfl, heq⟩ := heq
  -- no guard is an optional one, so the entry tells whether the field is optional
  cases optional with
  | false =>
    cases optional' with
    | false => exact hpass.imp id (hguard heq)
    | true => exact absurd heq hf.expr_ne_optional
  | true =>
    cases optional' with
    | false => exact absurd heq.symm hf'.expr_ne_optional
    | true => exact hpass.imp id (hguard (by simpa using heq))

/-- By induction on the first guard. Guards of other forms are other expressions, but for a literal
and a choice of one literal. -/
theorem Simple.accepts_of_expr (hg : g.Simple) (hh : h.Simple)
    (heq : g.expr quote keyText = h.expr quote keyText) (hv : g.accepts follow v = true) :
    h.accepts follow v = true := by
  induction hg generalizing h v with
  | kind htag => cases hh <;> simp_all
  | never => cases hv
  | always =>
    rw [eq_comm] at heq
    cases hh <;> simp_all
  | instanceOf | ref => cases hh <;> simp_all [Literal.expr, quote_injective.eq_iff]
  | literal hw =>
    cases hh with
    | literal hw' => simp_all [hw.expr_inj hw']
    | oneOf hws =>
      -- the choice can only be that of this literal
      cases Literal.Simple.map_expr_inj (forall_mem_singleton.2 hw) hws (by simpa using heq)
      simpa using hv
    | _ => simp_all
  | oneOf hws =>
    cases hh with
    | literal hw =>
      cases Literal.Simple.map_expr_inj hws (forall_mem_singleton.2 hw) (by simpa using heq)
      simpa using hv
    | oneOf hws' =>
      cases Literal.Simple.map_expr_inj hws hws' (by simpa using heq)
      exact hv
    | _ => simp_all
  | all _ ih =>
    cases hh with
    | all hhs =>
      rw [accepts, acceptsAll_iff] at hv ⊢
      intro h hh
      obtain ⟨g, hg, hsame⟩ := exists_mem_of_map_eq (by simpa using heq) hh
      exact ih g hg (hhs h hh) hsame (hv g hg)
    | _ => simp_all
  | any _ ih =>
    cases hh with
    | any hhs =>
      rw [accepts, acceptsAny_iff] at hv ⊢
      obtain ⟨g, hg, hv⟩ := hv
      rw [expr, expr, exprAll_eq, exprAll_eq] at heq
      obtain ⟨h, hh, hsame⟩ := exists_mem_of_map_eq (Expr.call.inj heq).2.2.symm hg
      exact ⟨h, hh, ih g hg (hhs h hh) hsame.symm hv⟩
    | _ => simp_all
  | tuple _ ih =>
    cases hh with
    | tuple hhs =>
      cases v with
      | list vs =>
        rw [accepts, acceptsEach_iff] at hv ⊢
        exact forall₂_of_map_eq hv (by simpa using heq) fun g hg h hh hsame _ =>
          ih g hg (hhs h hh) hsame
      | _ => cases hv
    | _ => simp_all
  | arrayOf _ ih =>
    cases hh with
    | arrayOf hh =>
      cases v with
      | list vs =>
        rw [accepts, all_eq_true] at hv ⊢
        exact fun v hmem => ih hh (by simpa using heq) (hv v hmem)
      | _ => cases hv
    | _ => simp_all
  | shape hfs ih =>
    cases hh with
    | shape hfs' =>
      cases v with
      | record fields =>
        rw [accepts, acceptsFields_iff] at hv ⊢
        intro f' hf'
        obtain ⟨f, hf, hsame⟩ := exists_mem_of_map_eq (by simpa using heq) hf'
        exact passes_of_entry (hfs f hf) (hfs' f' hf') hsame
          (fun {_} => ih f hf (hfs' f' hf')) (hv f hf)
      | _ => cases hv
    | _ => simp_all

/-- Simple guards of one text accept the same values. -/
theorem Simple.same_of_text (hg : g.Simple) (hh : h.Simple) (htext : g.text = h.text) :
    g.accepts follow = h.accepts follow := by
  have heq := hg.writes.unique hh.writes (by rw [← text_eq, ← text_eq, htext])
  funext v
  rw [Bool.eq_iff_iff]
  exact ⟨hg.accepts_of_expr hh heq, hh.accepts_of_expr hg heq.symm⟩

end

end Guard

/-! ## Compiled guards -/

/-- The type is made of the known primitive types and of simple literals, besides references. -/
structure Ty.Elementary (t : Ty) : Prop where
  primitive : ∀ {i name}, (Ty.primitive i name).Part t → name ∈ primitiveWords
  literal : ∀ {i v}, (Ty.literal i v).Part t → v.Simple

section Compiled

variable {g : Graph} {c c' : Compiler} {t : Ty}

theorem Ty.Elementary.part {u : Ty} (h : t.Elementary) (hu : u.Part t) : u.Elementary :=
  ⟨fun hpart => h.primitive (hpart.trans hu), fun hpart => h.literal (hpart.trans hu)⟩

theorem Ty.Basic.simple_byName {uidOf : Declaration → String} (h : t.Basic) (ht : t.Elementary) :
    (t.byName g uidOf).Simple := by
  cases h with
  | @primitive i name =>
    have hname := ht.primitive (.refl _)
    have hkind : ∀ name ∈ primitiveWords, ¬(name = "any" || name = "unknown") = true →
        name ≠ "never" → name ∈ Guard.kindWords := by decide
    rw [Ty.byName]
    split
    · exact .always _
    · split
      · exact .never
      · exact .kind (hkind name hname ‹_› ‹_›)
  | literal => exact .literal (ht.literal (.refl _))
  | literals h =>
    simp only [Ty.byName, h]
    refine .oneOf fun v hv => ?_
    obtain ⟨i, hi⟩ := (Compile.mem_literals h).2 v hv
    exact ht.literal (.union hi (.refl _))

theorem Ty.Composed.simple {ts : List Ty} {build : List Guard → Guard} (h : t.Composed ts build)
    {gs : List Guard} (hgs : ∀ r ∈ gs, r.Simple) : (build gs).Simple := by
  cases h with
  | union =>
    cases gs with
    | nil => exact .never
    | cons r gs => exact .any hgs
  | intersection => exact .all hgs
  | tuple => exact .tuple hgs
  | array =>
    cases gs with
    | nil => exact .arrayOf (.always _)
    | cons r gs => exact .arrayOf (hgs r mem_cons_self)
  | object =>
    refine .shape fun f hf => ?_
    rw [← map_uncurry_zip_eq_zipWith] at hf
    obtain ⟨⟨_, r⟩, hmem, rfl⟩ := mem_map.1 hf
    exact hgs r (of_mem_zip hmem).2

theorem Compiles.simple {underWay names : List String} {ts : List Ty} {rs : List Guard}
    (h : Compiles g underWay ts c rs names c') :
    (∀ t ∈ ts, t.Elementary) → ∀ r ∈ rs, r.Simple := by
  induction h with
  | nil => simp
  | append _ _ ih ih' =>
    intro hts
    rw [forall_mem_append] at hts ⊢
    exact ⟨ih hts.1, ih' hts.2⟩
  | basic ht hr =>
    intro hts r hmem
    rw [mem_singleton.1 hmem, ← hr fun _ => ""]
    exact ht.simple_byName (hts _ (mem_singleton_self _))
  | composed ht _ ih =>
    intro hts r hmem
    rw [mem_singleton.1 hmem]
    exact ht.simple (ih fun m hm => (hts _ (mem_singleton_self _)).part (ht.part hm (.refl _)))
  | unknown => exact fun _ r hmem => mem_singleton.1 hmem ▸ .always _
  | ofClass => exact fun _ r hmem => mem_singleton.1 hmem ▸ .instanceOf _
  | known => exact fun _ r hmem => mem_singleton.1 hmem ▸ .ref _
  | bodyless => exact fun _ r hmem => mem_singleton.1 hmem ▸ .always _
  | body => exact fun _ r hmem => mem_singleton.1 hmem ▸ .ref _

/-- The guards in an answer. -/
def GuardAnswer.guards : GuardAnswer → List Guard
  | .type r => [r]
  | .members ks => ks.map FieldGuard.guard

theorem GuardRequest.answer_simple {q : GuardRequest} {a : GuardAnswer}
    (h : Yields (q.answer g) c a c') (hq : ∀ t ∈ q.compiled g, t.Elementary) :
    ∀ r ∈ a.guards, r.Simple := by
  cases q with
  | type t =>
    obtain ⟨r, hr, rfl⟩ := yields_map.1 h
    obtain ⟨names, hrun⟩ := typeGuard_compiles hr
    exact hrun.simple hq
  | members t =>
    obtain ⟨ks, hks, rfl⟩ := yields_map.1 h
    cases hfields : fieldsOf g t with
    | none =>
      obtain ⟨ws, -, hnone⟩ := yields_memberGuards_none hfields
      obtain ⟨rfl, -⟩ := hnone.1 hks
      simp [GuardAnswer.guards]
    | some fields =>
      obtain ⟨rs, hrun, rfl⟩ := (yields_memberGuards hfields).1 hks
      obtain ⟨names, hrun⟩ := hrun.run
      rw [compiled, hfields] at hq
      intro r hr
      obtain ⟨k, hk, rfl⟩ := mem_map.1 hr
      obtain ⟨⟨f, r⟩, hmem, rfl⟩ := mem_map.1 hk
      have hsimple := hrun.simple hq r (of_mem_zip hmem).2
      unfold TyField.member
      dsimp only
      split
      · exact .any (forall_mem_cons.2 ⟨.kind (by decide), by simpa using hsimple⟩)
      · exact hsimple

end Compiled

/-- **The text of a guard says what it accepts.** Two guards that are answers to requests, of
compilers in any state, for types made of known primitive types and simple literals: if they are
printed alike, they accept the same values at every depth, whatever the keys in them stand for. -/
theorem text_determines_guard {g g' : Graph} {q q' : GuardRequest} {a a' : GuardAnswer}
    {c c₁ c' c₁' : Compiler} {r r' : Guard} (hrun : Yields (q.answer g) c a c₁)
    (hrun' : Yields (q'.answer g') c' a' c₁') (hq : ∀ t ∈ q.compiled g, t.Elementary)
    (hq' : ∀ t ∈ q'.compiled g', t.Elementary) (hr : r ∈ a.guards) (hr' : r' ∈ a'.guards)
    (htext : r.text = r'.text) (resolve : String → Option Guard) (n : Nat) (v : Value) :
    Guard.checkWithin resolve n r v = Guard.checkWithin resolve n r' v := by
  have hsame : ∀ follow, r.accepts follow = r'.accepts follow := fun _ =>
    (GuardRequest.answer_simple hrun hq r hr).same_of_text
      (GuardRequest.answer_simple hrun' hq' r' hr') htext
  cases n with
  | zero => exact congrFun (hsame _) v
  | succ n => exact congrFun (hsame _) v

/-- A choice of one literal is printed like the literal. -/
theorem text_determines_guard_pair : ∃ r s c c',
    Yields ((GuardRequest.type (.literal 0 (.text "x"))).answer ⟨0, []⟩) (.empty .path)
        (.type r) c ∧
      Yields ((GuardRequest.type (.union 0 [.literal 1 (.text "x")])).answer ⟨0, []⟩)
        (.empty .path) (.type s) c' ∧
      ∀ resolve n v, Guard.checkWithin resolve n r v = Guard.checkWithin resolve n s v := by
  have ht : (Ty.literal 0 (.text "x")).Elementary := by
    constructor <;> intro i x hpart <;> cases hpart
    exact .text _
  have hu : (Ty.union 0 [.literal 1 (.text "x")]).Elementary := by
    constructor <;>
    · intro i x hpart
      cases hpart with
      | union hm h =>
        cases mem_singleton.1 hm
        cases h <;> exact .text _
  have hrun : Yields ((GuardRequest.type (.literal 0 (.text "x"))).answer ⟨0, []⟩) (.empty .path)
    (.type (.literal (.text "x"))) _ := rfl
  have hrun' : Yields ((GuardRequest.type (.union 0 [.literal 1 (.text "x")])).answer ⟨0, []⟩)
    (.empty .path) (.type (.oneOf [.text "x"])) _ := rfl
  refine ⟨_, _, _, _, hrun, hrun', fun resolve n v => ?_⟩
  exact text_determines_guard hrun hrun' (forall_mem_singleton.2 ht) (forall_mem_singleton.2 hu)
    (mem_singleton_self _) (mem_singleton_self _) (by decide +kernel) resolve n v

end Componentry
