import Componentry.Proofs.Snippet.Legible

/-!
# The tokens of a text

What scanning a text finds. Whatever the text is, the words among its tokens are names and the
numbers are without a sign (`scanned_tokens`). If the text is that of legible chunks, scanning finds
no fault, and the tokens are those of the chunks, closed by the end mark (`tokens_of_laid`); no
other chunks have the same text (`Laid.unique`).
-/

namespace Componentry

open Snippet Text Number List

variable {k : TokenKind}

/-! ## Tokens of any text -/

/-- Scanning can give these tokens. -/
def Scanned (ts : List Token) : Prop := ∀ t ∈ ts, t.kind.Proper

theorem isIdentifier_decode {b : UInt8} {bs : Bytes} (hb : isWordStart b = true)
    (hbs : ∀ d ∈ bs, isWordPart d = true) : isIdentifier (decode (b :: bs)) = true := by
  have hword : ∀ d ∈ b :: bs, isWordPart d = true :=
    forall_mem_cons.2 ⟨isNamePart_of_isNameStart hb, hbs⟩
  have hbytes : encode ((b :: bs).map byteChar) = b :: bs :=
    encode_map_byteChar fun d hd => ascii_of_isNamePart (hword d hd)
  rw [← hbytes, decode_encode, isIdentifier, String.toList_ofList, map_cons]
  dsimp only
  rw [Bool.and_eq_true, all_eq_true, forall_mem_map]
  exact ⟨hb, hbs⟩

theorem Number.Decimal.canonical {d : Decimal} {v : Binary64}
    (h : d.toBinary64? false = some v) : v.Canonical := by
  unfold Decimal.toBinary64? at h
  split at h
  · exact ⟨0, 1, one_ne_zero, h⟩
  · dsimp only at h
    split at h
    · cases h
    · split at h
      · exact ⟨0, 1, one_ne_zero, h⟩
      · exact ⟨_, _, scaleTen_den one_ne_zero _, h⟩

/-- What stands for a number that was read, if it was, is a proper token. -/
theorem proper_of_value {value : Option Binary64} {fault : Fault} {width n : Nat} {k : TokenKind}
    (hvalue : ∀ v, value = some v → v.Canonical)
    (h : (match value with
      | some v => (Content.token (.number v), width)
      | none => (.fault fault, width)) = (.token k, n)) : k.Proper := by
  cases value with
  | none => cases h
  | some v =>
    cases h
    exact hvalue v rfl

theorem numberAt_proper {first : UInt8} {rest : Bytes} {n : Nat}
    (h : numberAt first rest = (.token k, n)) : k.Proper := by
  have hvalue : ∀ {refused : Bool} {d : Decimal} (v : Binary64),
      (if refused then none else d.toBinary64? false) = some v → v.Canonical := by
    intro refused d v hv
    split at hv
    · cases hv
    · exact Decimal.canonical hv
  unfold numberAt at h
  dsimp only at h
  split at h
  · exact proper_of_value hvalue h
  · cases h
  · exact proper_of_value hvalue h

/-- The words of scanned tokens are names, and the numbers without a sign. -/
theorem pieceAt_proper {loc : Location} {b : UInt8} {rest : Bytes} {n : Nat}
    (h : pieceAt loc b rest = (.token k, n)) : k.Proper := by
  unfold pieceAt at h
  dsimp only at h
  split at h
  · cases h
  split at h
  · unfold quotedAt at h
    dsimp only at h
    split at h
    · cases h
      trivial
    · cases h
  split at h
  · cases h
  split at h
  · exact numberAt_proper h
  split at h
  · rename_i hstart
    cases h
    exact isIdentifier_decode hstart fun d hd => mem_takeWhile_imp hd
  · split at h
    · cases h
      trivial
    · cases h

theorem scanFrom_proper {loc : Location} {bs : Bytes} {p : Piece}
    (hp : p ∈ Snippet.scanFrom loc bs) (hk : p.content = .token k) : k.Proper := by
  induction loc, bs using Snippet.scanFrom.induct with
  | case1 loc => simp [Snippet.scanFrom] at hp
  | case2 loc b rest content n hpiece piece ih =>
    rw [Snippet.scanFrom, hpiece] at hp
    rcases mem_cons.1 hp with rfl | hp
    · cases hk
      exact pieceAt_proper hpiece
    · exact ih hp

theorem scanned_tokens (base : Location) (bs : Bytes) :
    Scanned ((tokens bs).map (Token.within base)) := by
  intro u hu
  obtain ⟨t, ht, rfl⟩ := mem_map.1 hu
  show t.kind.Proper
  unfold tokens at ht
  rcases mem_append.1 ht with ht | ht
  · obtain ⟨p, hp, htoken⟩ := mem_filterMap.1 ht
    unfold Piece.token? at htoken
    split at htoken
    · rename_i kind hkind
      cases htoken
      exact scanFrom_proper hp hkind
    · cases htoken
  · rw [mem_singleton] at ht
    subst ht
    trivial

/-! ## Tokens of legible chunks -/

theorem map_kind_pieces {ps : List Piece} {cs : List Chunk}
    (h : ps.map Piece.content = cs.map Chunk.content) :
    (ps.filterMap Piece.token?).map Token.kind = kindsOf cs ∧ ps.filterMap Piece.fault? = [] := by
  induction ps generalizing cs with
  | nil =>
    cases cs with
    | nil => exact ⟨rfl, rfl⟩
    | cons c cs => cases h
  | cons p ps ih =>
    cases cs with
    | nil => cases h
    | cons c cs =>
      rw [map_cons, map_cons, List.cons.injEq] at h
      obtain ⟨hkinds, hfaults⟩ := ih h.2
      cases c with
      | blank =>
        have htoken : p.token? = none := by rw [Piece.token?, h.1]; rfl
        have hfault : p.fault? = none := by rw [Piece.fault?, h.1]; rfl
        rw [filterMap_cons_none htoken, filterMap_cons_none hfault]
        exact ⟨hkinds, hfaults⟩
      | token kind text =>
        have htoken : p.token? = some ⟨kind, p.span, p.loc⟩ := by
          rw [Piece.token?, h.1]
          rfl
        have hfault : p.fault? = none := by rw [Piece.fault?, h.1]; rfl
        rw [filterMap_cons_some htoken, filterMap_cons_none hfault, map_cons, hkinds]
        exact ⟨rfl, hfaults⟩

/-- The text of chunks that are scanned one by one is scanned to their tokens. -/
theorem tokens_of_laid {cs : List Chunk} {s : String} (hs : s.toList = charsOf cs)
    (hlaid : Laid cs []) (base : Location) :
    faults (utf8 s) = [] ∧
      ((tokens (utf8 s)).map (Token.within base)).map Token.kind = kindsOf cs ++ [.done] := by
  obtain ⟨ps, loc', hscan, hlooks⟩ := hlaid.scanFrom Location.start
  obtain ⟨hkinds, hfaults⟩ := map_kind_pieces
    (by simpa [Function.comp_def, Chunk.look] using congrArg (map Prod.fst) hlooks)
  have hpieces : scan (utf8 s) = ps := by
    rw [scan, utf8_eq, hs, ← append_nil (charsOf cs), hscan, encode_nil, Snippet.scanFrom,
      append_nil]
  refine ⟨by rw [faults, hpieces, hfaults], ?_⟩
  have hwithin : Token.kind ∘ Token.within base = Token.kind := rfl
  rw [map_map, hwithin, tokens, hpieces, map_append, hkinds]
  rfl

theorem Chunk.look_injective : Function.Injective Chunk.look := by
  intro c d h
  have hchars := congrArg (fun l => decode l.2) h
  simp only [Chunk.look, decode_encode, String.ofList_inj] at hchars
  cases c <;> cases d <;> simp_all [Chunk.look, Chunk.content, Chunk.chars]

/-- A text is that of no other chunks that are scanned one by one. -/
theorem Laid.unique {cs ds : List Chunk} (hcs : Laid cs []) (hds : Laid ds [])
    (h : charsOf cs = charsOf ds) : cs = ds := by
  obtain ⟨ps, _, hps, hlooks⟩ := hcs.scanFrom .start
  obtain ⟨qs, _, hqs, hlooks'⟩ := hds.scanFrom .start
  rw [h, hqs] at hps
  obtain rfl : qs = ps := by simpa [encode_nil, Snippet.scanFrom] using hps
  exact map_injective_iff.2 Chunk.look_injective (hlooks.symm.trans hlooks')

end Componentry
