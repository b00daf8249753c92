import Componentry.Proofs.Snippet.Proper
import Componentry.Proofs.Snippet.Numerals
import Componentry.Proofs.Snippet.Opening

/-!
# Printed trees are scanned to their tokens

Chunks are `Laid` in front of a text when each of them is scanned to its token, whatever comes after
it. Whether they are depends on neighbours alone: a word or a number must not run into another one,
and a mark not into a longer mark. `Legible` chunks are laid in front of every soft text, if their
words are names and their numbers without a sign; the chunks of every tree are legible
(`Expr.legible`, `TypeExpr.legible`), by one rule for each way in which chunks are put together.
-/

namespace Componentry

open Snippet Text Number List

variable {cs ds : List Chunk} {p : Punct} {wrap : Bool} {w : String} {next : List Char}

/-! ## Chunks side by side -/

/-- In front of `next`, every chunk is scanned to its piece. -/
def Laid : List Chunk → List Char → Prop
  | [], _ => True
  | c :: cs, next => c.Scans (charsOf cs ++ next) ∧ Laid cs next

theorem Laid.append (hcs : Laid cs (charsOf ds ++ next)) (hds : Laid ds next) :
    Laid (cs ++ ds) next := by
  induction cs with
  | nil => exact hds
  | cons c cs ih =>
    refine ⟨?_, ih hcs.2⟩
    show c.Scans (charsOf (cs ++ ds) ++ next)
    rw [charsOf_append, append_assoc]
    exact hcs.1

/-- Chunks that are laid are scanned piece by piece. -/
theorem Laid.scanFrom (h : Laid cs next) (loc : Location) :
    ∃ ps loc', Snippet.scanFrom loc (encode (charsOf cs ++ next)) =
      ps ++ Snippet.scanFrom loc' (encode next) ∧
      (ps.map fun p => (p.content, p.span)) = cs.map Chunk.look := by
  induction cs generalizing loc with
  | nil => exact ⟨[], loc, rfl, rfl⟩
  | cons c cs ih =>
    obtain ⟨p, mid, hp, hlook⟩ := h.1.scanFrom loc
    obtain ⟨ps, loc', hps, hlooks⟩ := ih h.2 mid
    refine ⟨p :: ps, loc', ?_, ?_⟩
    · rw [charsOf_cons, append_assoc, hp, hps, cons_append]
    · rw [map_cons, map_cons, hlook, hlooks]

/-- What begins with `=` is a comparison, an assignment or an arrow. -/
theorem pieceAt_assign (loc : Location) (rest : Bytes) : ∃ p n,
    pieceAt loc 61 rest = (.token (.punct p), n) ∧
      p ∈ [Punct.strictEqual, .equal, .arrow, .assign] := by
  have hmark : ∃ p n, markAt (byteChar 61) rest = some (p, n) ∧
      p ∈ [Punct.strictEqual, .equal, .arrow, .assign] := by
    show ∃ p n, (if follows ['=', '='] rest then some (Punct.strictEqual, 2)
      else if follows ['='] rest then some (.equal, 1)
      else if follows ['>'] rest then some (.arrow, 1)
      else some (.assign, 0)) = some (p, n) ∧ _
    split
    · exact ⟨_, _, rfl, by decide⟩
    · split
      · exact ⟨_, _, rfl, by decide⟩
      · split <;> exact ⟨_, _, rfl, by decide⟩
  obtain ⟨p, n, hp, hmem⟩ := hmark
  exact ⟨p, n, pieceAt_mark (by decide) rfl rfl hp, hmem⟩

/-- The first token does not begin with `=`. -/
def Mild (ks : List TokenKind) : Prop :=
  ∀ p ∈ [Punct.strictEqual, .equal, .arrow, .assign], ks.head? ≠ some (.punct p)

instance (ks : List TokenKind) : Decidable (Mild ks) := by
  unfold Mild
  infer_instance

namespace Mild

variable {ks ls : List TokenKind}

theorem nil : Mild [] := fun _ _ h => nomatch h

theorem of_starts (h : Starts ks) : Mild ks := by
  intro p hp
  refine h.head?_ne ?_
  simp only [mem_cons, not_mem_nil, or_false] at hp
  rcases hp with rfl | rfl | rfl | rfl <;> rfl

theorem cons {k : TokenKind} (h : k.starts = true) : Mild (k :: ks) := of_starts (Starts.cons h)

theorem append (hks : Mild ks) (hls : Mild ls) : Mild (ks ++ ls) := by
  cases ks with
  | nil => exact hls
  | cons k ks => exact hks

theorem grouped (h : Mild ks) : Mild (groupedKinds wrap ks) := by
  cases wrap with
  | false => exact h
  | true => exact cons rfl

theorem separated {sep : Punct} (hsep : Mild [.punct sep]) :
    ∀ {kss : List (List TokenKind)}, (∀ ks ∈ kss, Mild ks) → Mild (separated sep kss)
  | [], _ => nil
  | [ks], h => by
    rw [separated_singleton]
    exact h ks (mem_cons_self ..)
  | ks :: ls :: kss, h => by
    rw [separated_cons_cons]
    exact (h ks (mem_cons_self ..)).append
      (append hsep (separated hsep fun ms hms => h ms (mem_cons_of_mem _ hms)))

end Mild

/-- Chunks that are laid do not begin with `=` unless their first token does. -/
theorem Laid.head_ne {c : Chunk} (h : Laid (c :: cs) next) (hmild : Mild (kindsOf (c :: cs))) :
    (charsOf (c :: cs) ++ next).head? ≠ some '=' := by
  intro hhead
  obtain ⟨b, tail, hbytes, hpiece⟩ := h.1 Location.start
  cases hchars : c.chars with
  | nil =>
    rw [hchars] at hbytes
    cases hbytes
  | cons d ds =>
    rw [charsOf_cons, hchars] at hhead
    cases hhead
    rw [hchars, encode_cons_ascii (by decide)] at hbytes
    cases hbytes
    obtain ⟨p, n, hassign, hp⟩ := pieceAt_assign Location.start
      (encode ds ++ encode (charsOf cs ++ next))
    rw [show byte '=' = 61 from rfl, hassign] at hpiece
    cases c with
    | blank => cases hpiece
    | token kind text =>
      cases hpiece
      exact hmild p hp rfl

/-! ## What cannot be taken for a part of a word -/

/-- The words of the chunks are names, and their numbers without a sign. -/
def Proper (cs : List Chunk) : Prop := ∀ k ∈ kindsOf cs, k.Proper

theorem Proper.left (h : Proper (cs ++ ds)) : Proper cs := fun k hk =>
  h k (by rw [kindsOf_append]; exact mem_append_left _ hk)

theorem Proper.right (h : Proper (cs ++ ds)) : Proper ds := fun k hk =>
  h k (by rw [kindsOf_append]; exact mem_append_right _ hk)

theorem Proper.tail {c : Chunk} (h : Proper ([c] ++ cs)) : Proper cs := h.right

theorem head_of_isIdentifier (h : isIdentifier w = true) :
    ∃ c more, w.toList = c :: more ∧ isNameStart c = true := by
  unfold isIdentifier at h
  split at h
  · cases h
  · rename_i c more hchars
    rw [Bool.and_eq_true] at h
    exact ⟨c, more, hchars, h.1⟩

theorem isDigit_of_isNameStart {c : Char} (h : isNameStart c = true) : c.isDigit = false := by
  rw [← Bool.not_eq_true]
  intro hdigit
  have hle : ∀ d e : Char, d ≤ e → d.toNat ≤ e.toNat := fun _ _ hde => hde
  unfold Char.isDigit at hdigit
  rw [Bool.and_eq_true, decide_eq_true_iff, decide_eq_true_iff] at hdigit
  have hlow := hle '0' c hdigit.1
  have hhigh := hle c '9' hdigit.2
  unfold isNameStart at h
  simp only [Bool.or_eq_true, Bool.and_eq_true, decide_eq_true_eq, beq_iff_eq] at h
  rcases h with ((h | h) | rfl) | rfl
  · have := hle 'a' c h.1
    exact absurd (this.trans hhigh) (by decide)
  · have := hle 'A' c h.1
    exact absurd (this.trans hhigh) (by decide)
  · exact absurd hhigh (by decide)
  · exact absurd hlow (by decide)

theorem soft_nil : Soft [] := ⟨nofun, nofun⟩

/-- A character that is neither a point nor a part of a name. -/
theorem soft_cons {c : Char} {cs : List Char} (hpart : isNamePart c = false) (hpoint : c ≠ '.') :
    Soft (c :: cs) := by
  refine ⟨fun d hd => ?_, fun d ds h => ?_⟩
  · cases hd
    exact hpart
  · cases h
    exact absurd rfl hpoint

/-- Chunks that a word or a number in front of them does not run into. -/
def Detached (cs : List Chunk) : Prop :=
  Proper cs → ∀ next, Soft next → Soft (charsOf cs ++ next)

namespace Detached

variable {cs ds : List Chunk}

theorem nil : Detached [] := fun _ _ h => h

theorem blank : Detached (.blank :: cs) := fun _ _ _ => soft_cons (by decide) (by decide)

theorem mark (hp : p ≠ .dot) : Detached (.mark p :: cs) := by
  intro _ next _
  have hhead : ∃ c more, p.spelling.toList = c :: more ∧ isNamePart c = false ∧ c ≠ '.' := by
    cases p <;> first
      | exact ⟨_, _, rfl, by decide, by decide⟩
      | exact absurd rfl hp
  obtain ⟨c, more, hspelling, hpart, hpoint⟩ := hhead
  rw [charsOf_cons, Chunk.chars_mark, hspelling]
  exact soft_cons hpart hpoint

theorem member : Detached (.mark .dot :: .word w :: cs) := by
  intro hproper next _
  obtain ⟨c, more, hchars, hc⟩ := head_of_isIdentifier (hproper (.word w) (by simp))
  refine ⟨fun d hd => ?_, fun d ds h => ?_⟩
  · cases hd
    decide
  · rw [charsOf_cons, charsOf_cons, Chunk.chars_word, hchars] at h
    cases h
    exact isDigit_of_isNameStart hc

end Detached

/-! ## Legible chunks -/

/-- Chunks that are laid in front of every soft text. -/
def Legible (cs : List Chunk) : Prop := Proper cs → ∀ next, Soft next → Laid cs next

/-- Chunks that can stand between others. -/
structure Separates (sep : List Chunk) : Prop where
  detached : ∀ cs, Detached (sep ++ cs)
  legible : ∀ {cs}, Legible cs → Legible (sep ++ cs)

namespace Legible

variable {cs ds : List Chunk}

theorem nil : Legible [] := fun _ _ _ => trivial

theorem append (hcs : Legible cs) (hds : Legible ds) (hdetached : Detached ds) :
    Legible (cs ++ ds) := fun hproper _ hnext =>
  (hcs hproper.left _ (hdetached hproper.right _ hnext)).append (hds hproper.right _ hnext)

theorem blank (h : Legible cs) : Legible (.blank :: cs) := fun hproper next hnext =>
  ⟨Chunk.scans_blank _, h hproper.tail next hnext⟩

theorem quoted (s : String) (h : Legible cs) : Legible (.quoted s :: cs) :=
  fun hproper next hnext => ⟨Chunk.scans_quoted s _, h hproper.tail next hnext⟩

theorem word (w : String) (h : Legible cs) (hdetached : Detached cs) : Legible (.word w :: cs) :=
  fun hproper next hnext =>
    ⟨Chunk.scans_word (hproper (.word w) (mem_cons_self ..))
      (hdetached hproper.tail next hnext), h hproper.tail next hnext⟩

theorem number (v : Binary64) (h : Legible cs) (hdetached : Detached cs) :
    Legible (.number v :: cs) := fun hproper next hnext =>
  ⟨Chunk.scans_number (hproper (.number v) (mem_cons_self ..))
    (hdetached hproper.tail next hnext), h hproper.tail next hnext⟩

theorem key (s : String) (h : Legible cs) (hdetached : Detached cs) : Legible (.key s :: cs) := by
  unfold Chunk.key
  split
  · exact word s h hdetached
  · exact quoted s h

/-- Most marks are marks of their own whatever follows. -/
theorem mark (hp : p.clashes = []) (h : Legible cs) : Legible (.mark p :: cs) :=
  fun hproper next hnext =>
    ⟨Chunk.scans_mark fun c _ => by simp [hp], h hproper.tail next hnext⟩

theorem mark_blank (p : Punct) (h : Legible cs) : Legible (.mark p :: .blank :: cs) := by
  intro hproper next hnext
  refine ⟨Chunk.scans_mark fun c hc => ?_, blank h hproper.tail next hnext⟩
  cases hc
  cases p <;> decide

/-- A mark that only `=` would change. -/
theorem mark_mild (hp : p.clashes = ['=']) (h : Legible cs) (hne : cs ≠ [])
    (hmild : Mild (kindsOf cs)) : Legible (.mark p :: cs) := by
  intro hproper next hnext
  have hlaid := h hproper.tail next hnext
  refine ⟨Chunk.scans_mark fun c hc => ?_, hlaid⟩
  obtain ⟨d, ds, rfl⟩ := exists_cons_of_ne_nil hne
  rw [hp, mem_singleton]
  rintro rfl
  exact hlaid.head_ne hmild hc

theorem member (w : String) (h : Legible cs) (hdetached : Detached cs) :
    Legible (.mark .dot :: .word w :: cs) := by
  intro hproper next hnext
  refine ⟨Chunk.scans_mark fun c hc => ?_, word w h hdetached hproper.tail next hnext⟩
  obtain ⟨d, more, hchars, hd⟩ := head_of_isIdentifier (hproper (.word w) (by simp))
  rw [charsOf_cons, Chunk.chars_word, hchars] at hc
  cases hc
  intro hclash
  simp only [Punct.clashes, mem_cons, not_mem_nil, or_false] at hclash
  rcases hclash with rfl | rfl | rfl | rfl | rfl | rfl | rfl | rfl | rfl | rfl <;> cases hd

theorem grouped (h : Legible cs) : Legible (grouped wrap cs) := by
  cases wrap with
  | false => exact h
  | true => exact append (mark rfl h) (mark rfl nil) (.mark (by decide))

/-- Marks in front of a blank. -/
theorem marks_blank (ps : List Punct) (hps : ∀ p ∈ ps.dropLast, p.clashes = []) (h : Legible cs) :
    Legible (ps.map .mark ++ .blank :: cs) := by
  induction ps with
  | nil => exact blank h
  | cons p ps ih =>
    cases ps with
    | nil => exact mark_blank p h
    | cons q ps =>
      rw [dropLast_cons_cons, forall_mem_cons] at hps
      exact mark hps.1 (ih hps.2)

theorem separated {sep : List Chunk} (hsep : Separates sep) (hcs : Legible cs) (hds : Legible ds) :
    Legible (cs ++ sep ++ ds) := by
  rw [append_assoc]
  exact append hcs (hsep.legible hds) (hsep.detached ds)

end Legible

namespace Separates

theorem mark_blank (hp : p ≠ .dot) : Separates [.mark p, .blank] :=
  ⟨fun _ => .mark hp, fun h => .mark_blank p h⟩

theorem arrow : Separates [.mark .rparen, .blank, .mark .arrow, .blank] :=
  ⟨fun _ => .mark (by decide), fun h => .mark rfl (.blank (.mark_blank .arrow h))⟩

theorem blank_word_blank (w : String) : Separates [.blank, .word w, .blank] :=
  ⟨fun _ => .blank, fun h => .blank (.word w (.blank h) .blank)⟩

theorem blank_mark_blank (p : Punct) : Separates [.blank, .mark p, .blank] :=
  ⟨fun _ => .blank, fun h => .blank (.mark_blank p h)⟩

end Separates

/-! ## Parts of trees -/

theorem Literal.legible (v : Literal) : Legible v.chunks := by
  unfold Literal.chunks
  split
  · exact .word _ .nil .nil
  · exact .quoted _ .nil
  · exact .mark rfl (.number _ .nil .nil)
  · exact .number _ .nil .nil
  · exact .word _ .nil .nil
  · -- a list is no token, and what it is printed as is no name
    intro hproper
    have hname : isIdentifier "" = true := hproper (.word "") (mem_cons_self ..)
    exact absurd hname (by decide)

theorem legible_dotted (ws : List String) : Detached (ws.flatMap fun w => [.mark .dot, .word w]) ∧
    Legible (ws.flatMap fun w => [.mark .dot, .word w]) := by
  induction ws with
  | nil => exact ⟨.nil, .nil⟩
  | cons w ws ih => exact ⟨.member, .member w ih.2 ih.1⟩

theorem nameChunks_eq (name : String) : ∃ w ws, nameWords name = w :: ws ∧
    nameChunks name = .word w :: ws.flatMap fun w => [.mark .dot, .word w] := by
  obtain ⟨w, ws, hws⟩ := exists_cons_of_ne_nil (nameWords_ne_nil name)
  refine ⟨w, ws, hws, ?_⟩
  unfold nameChunks
  rw [hws]
  clear hws
  induction ws generalizing w with
  | nil => rfl
  | cons v ws ih =>
    have hrest := ih v
    rw [map_cons] at hrest
    rw [map_cons, map_cons, intercalate_cons_cons, hrest]
    rfl

theorem legible_nameChunks (name : String) : Legible (nameChunks name) := by
  obtain ⟨w, ws, -, hchunks⟩ := nameChunks_eq name
  rw [hchunks]
  exact .word w (legible_dotted ws).2 (legible_dotted ws).1

theorem legible_names (ns : List String) :
    Legible ([Chunk.mark .comma, .blank].intercalate (ns.map fun n => [Chunk.word n])) := by
  induction ns with
  | nil => exact .nil
  | cons n ns ih =>
    cases ns with
    | nil => exact .word n .nil .nil
    | cons m ns =>
      rw [map_cons, map_cons, intercalate_cons_cons]
      exact .separated (.mark_blank (by decide)) (.word n .nil .nil) ih

theorem Binding.legible (b : Binding) : Legible b.chunks := by
  cases b with
  | name n => exact .word n .nil .nil
  | elements ns => exact .append (.mark rfl (legible_names ns)) (.mark rfl .nil) (.mark (by decide))

theorem legible_optional (optional : Bool) : Legible (optionalChunks optional) := by
  cases optional with
  | false => exact .nil
  | true => exact .mark rfl .nil

theorem detached_optional (optional : Bool) : Detached (optionalChunks optional) := by
  cases optional with
  | false => exact .nil
  | true => exact .mark (by decide)

theorem TypeExpr.detached_suffix (t : Option TypeExpr) : Detached (TypeExpr.chunksSuffix t) := by
  cases t with
  | none => exact .nil
  | some t => exact .mark (by decide)

theorem Expr.detached_init (e : Option Expr) : Detached (Expr.chunksInit e) := by
  cases e with
  | none => exact .nil
  | some e => exact .blank

theorem legible_modified (m : Option Modifier) (h : Legible (.word w :: cs)) :
    Legible (Modifier.chunks m ++ .word w :: cs) := by
  cases m with
  | none => exact h
  | some m => exact .word _ (.blank h) .blank

theorem UnaryOp.legible (op : UnaryOp) (x : Expr) (h : Legible (grouped wrap x.chunks)) :
    Legible (op.chunks ++ grouped wrap x.chunks) := by
  cases op with
  | not =>
    have hstarts : Starts (kindsOf (grouped wrap x.chunks)) := by
      rw [kindsOf_grouped]
      exact (Starts.expr x).grouped
    refine .mark_mild rfl h ?_ (.of_starts hstarts)
    intro hnil
    rw [show grouped wrap x.chunks = [] from hnil] at hstarts
    exact absurd hstarts.length_pos (Nat.lt_irrefl 0)
  | minus => exact .mark rfl h
  | typeOf => exact .word _ (.blank h) .blank

/-- The marks of an operator stand between blanks. -/
theorem BinaryOp.legible (op : BinaryOp) (h : Legible cs) :
    Legible (op.puncts.map .mark ++ .blank :: cs) := by
  refine .marks_blank _ (fun p hp => ?_) h
  cases op <;> simp only [BinaryOp.puncts, dropLast_singleton, dropLast_cons_cons,
    not_mem_nil, mem_singleton] at hp
  subst hp
  rfl

mutual

/-- No type begins with `=`. -/
theorem TypeExpr.mild : ∀ t : TypeExpr, Mild t.kinds
  | .reference _ name args => by
    obtain ⟨w, ws, -, hname⟩ := nameChunks_eq name
    cases args <;> (rw [TypeExpr.kinds, TypeExpr.chunks, hname]; exact .cons rfl)
  | .literal _ v => .of_starts (Starts.literal v)
  | .union _ ms => by
    rw [TypeExpr.kinds_union]
    exact .separated (by decide) (forall_mem_map.2 (TypeExpr.mildAll ms))
  | .intersection _ ms => by
    rw [TypeExpr.kinds_intersection]
    exact .separated (by decide) (forall_mem_map.2 (TypeExpr.mildAll ms))
  | .array _ t => by
    rw [TypeExpr.kinds, TypeExpr.chunks, kindsOf_append, kindsOf_grouped]
    exact .append (.grouped t.mild) (.cons rfl)
  | .tuple _ _ | .object _ [] | .object _ (_ :: _) | .query _ _ | .function _ _ none
  | .function _ _ (some _) => .cons rfl
  | .conditional _ a b c d => by
    rw [TypeExpr.kinds, TypeExpr.chunks]
    simp only [append_assoc]
    rw [kindsOf_append]
    exact .append a.mild (.cons rfl)

theorem TypeExpr.mildAll : ∀ ts : List TypeExpr, ∀ t ∈ ts, Mild t.kinds
  | [] => nofun
  | t :: ts => forall_mem_cons.2 ⟨t.mild, TypeExpr.mildAll ts⟩

end

mutual

theorem Expr.legible : ∀ e : Expr, Legible e.chunks
  | .literal _ v => v.legible
  | .name _ n => .word n .nil .nil
  | .self _ | .parent _ => .word _ .nil .nil
  | .member _ o p => .append o.legible (.member p .nil .nil) .member
  | .index _ o k =>
    .append (.append o.legible (.mark rfl k.legible) (.mark (by decide))) (.mark rfl .nil)
      (.mark (by decide))
  | .call _ c args =>
    .append (.append (.grouped c.legible) (.mark rfl (Expr.legibleAll args)) (.mark (by decide)))
      (.mark rfl .nil) (.mark (by decide))
  | .create _ c args =>
    .append (.append (.word _ (.blank c.legible) .blank) (.mark rfl (Expr.legibleAll args))
      (.mark (by decide))) (.mark rfl .nil) (.mark (by decide))
  | .array _ es =>
    .append (.mark rfl (Expr.legibleAll es)) (.mark rfl .nil) (.mark (by decide))
  | .object _ [] => .mark rfl (.mark rfl .nil)
  | .object _ (p :: ps) =>
    .append (.mark rfl (.blank (Property.legibleAll (p :: ps)))) (.blank (.mark rfl .nil)) .blank
  | .arrow _ ps b =>
    .separated .arrow (.mark rfl (Param.legibleAll ps)) b.legible
  | .binary _ op l r => by
    rw [Expr.chunks, append_assoc]
    exact .append (.grouped l.legible) (.blank (op.legible (.grouped r.legible))) .blank
  | .unary _ op x => op.legible x (.grouped x.legible)
  | .assign _ t v => .separated (.blank_mark_blank .assign) t.legible v.legible

theorem Expr.legibleAll : ∀ es : List Expr, Legible (Expr.chunksAll es)
  | [] => .nil
  | [e] => e.legible
  | e :: f :: es => .separated (.mark_blank (by decide)) e.legible (Expr.legibleAll (f :: es))

theorem Property.legible : ∀ p : Property, Legible p.chunks
  | .mk _ k v => .key k (.mark_blank .colon v.legible) (.mark (by decide))

theorem Property.legibleAll : ∀ ps : List Property, Legible (Property.chunksAll ps)
  | [] => .nil
  | [p] => p.legible
  | p :: q :: ps =>
    .separated (.mark_blank (by decide)) p.legible (Property.legibleAll (q :: ps))

theorem ArrowBody.legible : ∀ b : ArrowBody, Legible b.chunks
  | .value e => .grouped e.legible
  | .block [] => .mark rfl (.mark rfl .nil)
  | .block (s :: ss) =>
    .append (.mark rfl (.blank (Stmt.legibleAll (s :: ss)))) (.mark rfl .nil) (.mark (by decide))

theorem Stmt.legible : ∀ s : Stmt, Legible s.chunks
  | .run _ e => .append e.legible (.mark rfl .nil) (.mark (by decide))
  | .bind _ kind b t v =>
    .append (.append (.append (.word _ (.blank b.legible) .blank) (TypeExpr.legibleSuffix t)
      (TypeExpr.detached_suffix t)) (Expr.legibleInit v) (Expr.detached_init v)) (.mark rfl .nil)
      (.mark (by decide))
  | .yield _ none => .word _ (.mark rfl .nil) (.mark (by decide))
  | .yield _ (some e) =>
    .append (.word _ (.blank e.legible) .blank) (.mark rfl .nil) (.mark (by decide))
  | .block _ [] => .mark rfl (.mark rfl .nil)
  | .block _ (s :: ss) =>
    .append (.mark rfl (.blank (Stmt.legibleAll (s :: ss)))) (.mark rfl .nil) (.mark (by decide))

theorem Stmt.legibleAll : ∀ ss : List Stmt, Legible (Stmt.chunksAll ss)
  | [] => .nil
  | s :: ss => .append s.legible (.blank (Stmt.legibleAll ss)) .blank

theorem Expr.legibleInit : ∀ e : Option Expr, Legible (Expr.chunksInit e)
  | none => .nil
  | some e => .blank (.mark_blank .assign e.legible)

theorem TypeExpr.legible : ∀ t : TypeExpr, Legible t.chunks
  | .reference _ n [] => legible_nameChunks n
  | .reference _ n (a :: as) => by
    have hargs : Legible (TypeExpr.chunksAll [.mark .comma, .blank] (a :: as) ++
        [.mark .greater]) :=
      .append (TypeExpr.legibleAll (.mark_blank (by decide)) (a :: as)) (.mark rfl .nil)
        (.mark (by decide))
    rw [TypeExpr.chunks, append_assoc, cons_append]
    refine .append (legible_nameChunks n) (.mark_mild rfl hargs (by simp) ?_) (.mark (by decide))
    rw [kindsOf_append, TypeExpr.kindsOf_chunksAll _ rfl]
    exact .append (.separated (by decide) (forall_mem_map.2 fun t _ => t.mild)) (by decide)
  | .literal _ v => v.legible
  | .union _ ms => TypeExpr.legibleAll (.blank_mark_blank .pipe) ms
  | .intersection _ ms => TypeExpr.legibleAll (.blank_mark_blank .amp) ms
  | .array _ t => .append (.grouped t.legible) (.mark rfl (.mark rfl .nil)) (.mark (by decide))
  | .tuple _ ts =>
    .append (.mark rfl (TypeExpr.legibleAll (.mark_blank (by decide)) ts)) (.mark rfl .nil)
      (.mark (by decide))
  | .object _ [] => .mark rfl (.mark rfl .nil)
  | .object _ (p :: ps) =>
    .append (.mark rfl (.blank (PropertyType.legibleAll (p :: ps)))) (.blank (.mark rfl .nil))
      .blank
  | .query _ e => .word _ (.blank e.legible) .blank
  | .function _ ps none =>
    .append (.mark rfl (Param.legibleAll ps))
      (.mark rfl (.blank (.mark_blank .arrow (.word _ .nil .nil)))) (.mark (by decide))
  | .function _ ps (some r) =>
    .separated .arrow (.mark rfl (Param.legibleAll ps)) r.legible
  | .conditional _ a b c d =>
    .separated (.blank_mark_blank .colon) (.separated (.blank_mark_blank .question)
      (.separated (.blank_word_blank "extends") a.legible b.legible) c.legible) d.legible

theorem TypeExpr.legibleAll {sep : List Chunk} (hsep : Separates sep) :
    ∀ ts : List TypeExpr, Legible (TypeExpr.chunksAll sep ts)
  | [] => .nil
  | [t] => t.legible
  | t :: u :: ts => .separated hsep t.legible (TypeExpr.legibleAll hsep (u :: ts))

theorem TypeExpr.legibleSuffix : ∀ t : Option TypeExpr, Legible (TypeExpr.chunksSuffix t)
  | none => .nil
  | some t => .mark_blank .colon t.legible

theorem PropertyType.legible : ∀ p : PropertyType, Legible p.chunks
  | .mk n optional t =>
    .separated (.mark_blank (by decide))
      (.key n (legible_optional optional) (detached_optional optional)) t.legible

theorem PropertyType.legibleAll : ∀ ps : List PropertyType, Legible (PropertyType.chunksAll ps)
  | [] => .nil
  | [p] => p.legible
  | p :: q :: ps =>
    .separated (.mark_blank (by decide)) p.legible (PropertyType.legibleAll (q :: ps))

theorem Param.legible : ∀ p : Param, Legible p.chunks
  | .mk _ m n optional t =>
    .append
      (legible_modified m (.word n (legible_optional optional) (detached_optional optional)))
      (TypeExpr.legibleSuffix t) (TypeExpr.detached_suffix t)

theorem Param.legibleAll : ∀ ps : List Param, Legible (Param.chunksAll ps)
  | [] => .nil
  | [p] => p.legible
  | p :: q :: ps => .separated (.mark_blank (by decide)) p.legible (Param.legibleAll (q :: ps))

end

end Componentry
