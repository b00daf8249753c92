import Componentry.Proofs.Number.Shortest
import Componentry.Proofs.Snippet.Quoting
import Componentry.Proofs.Text.Utf8

/-!
# Printed chunks are scanned to their tokens

A chunk is scanned to its token when what follows it cannot be taken for a part of it. For most
chunks it is enough that what follows is `Soft`: it begins neither like a word nor like the places
of a number.
-/

namespace Componentry

open Snippet Text Number List

variable {next cs : List Char} {c : Char}

/-! ## Bytes -/

/-- The first byte of a text is the byte of its first character, or past `0x7F`. -/
theorem head?_encode {b : UInt8} (h : b ∈ (encode cs).head?) :
    ∃ c ∈ cs.head?, (c.toNat < 0x80 ∧ b = byte c) ∨ (0x80 ≤ c.toNat ∧ 0x80 ≤ b.toNat) := by
  cases cs with
  | nil => cases h
  | cons c cs =>
    refine ⟨c, rfl, ?_⟩
    by_cases hc : c.toNat < 0x80
    · rw [encode_cons_ascii hc] at h
      cases h
      exact Or.inl ⟨hc, rfl⟩
    · rw [encode_cons] at h
      obtain ⟨d, tail, hd, -⟩ := leading_encode c []
      rw [hd] at h
      cases h
      refine Or.inr ⟨Nat.le_of_not_lt hc, le_of_mem_encode (Nat.le_of_not_lt hc) ?_⟩
      rw [hd]
      exact mem_cons_self ..

/-- A class of characters below U+0080 that the first byte does not belong to. -/
theorem head?_class {p : UInt8 → Bool}
    (hp : (List.range 256).all (fun n => !p (UInt8.ofNat n) || decide (n < 0x80)) = true)
    (h : ∀ c ∈ cs.head?, c.toNat < 0x80 → p (byte c) = false) :
    ∀ b ∈ (encode cs).head?, p b = false := by
  intro b hb
  obtain ⟨c, hc, ⟨hascii, rfl⟩ | ⟨-, hpast⟩⟩ := head?_encode hb
  · exact h c hc hascii
  · have hb := forall_byte (p := fun b => !p b || decide (b.toNat < 0x80)) ?_ b
    · rw [Bool.or_eq_true, decide_eq_true_iff, or_iff_left (by omega), Bool.not_eq_true'] at hb
      exact hb
    · rw [all_eq_true] at hp ⊢
      intro n hn
      have := hp n hn
      rw [UInt8.toNat_ofNat', Nat.mod_eq_of_lt (mem_range.1 hn)]
      exact this

theorem takeWhile_append {α : Type} {p : α → Bool} {as bs : List α} (has : ∀ a ∈ as, p a = true)
    (hbs : ∀ b ∈ bs.head?, p b = false) : (as ++ bs).takeWhile p = as := by
  rw [takeWhile_append_of_pos has]
  cases bs with
  | nil => rw [takeWhile_nil, append_nil]
  | cons b bs => rw [takeWhile_cons, hbs b rfl, if_neg Bool.false_ne_true, append_nil]

theorem follows_encode (hc : c.toNat < 0x80) (h : next.head? ≠ some c) :
    follows (c :: cs) (encode next) = false := by
  cases hnext : encode next with
  | nil => rfl
  | cons b bs =>
    obtain ⟨d, hd, hb⟩ := head?_encode (show b ∈ (encode next).head? by rw [hnext]; rfl)
    have hne : (byteChar b == c) = false := by
      refine beq_false_of_ne ?_
      rintro rfl
      rcases hb with ⟨hascii, rfl⟩ | ⟨-, hpast⟩
      · rw [byteChar_byte hascii] at h
        exact h hd
      · rw [toNat_byteChar] at hc
        omega
    rw [follows, hne, Bool.false_and]

/-! ## Chunks -/

/-- The piece that a chunk is scanned to. -/
def Chunk.content : Chunk → Content
  | .blank => .blank
  | .token kind _ => .token kind

/-- The piece that a chunk is scanned to, with its bytes. -/
def Chunk.look (c : Chunk) : Content × Bytes := (c.content, encode c.chars)

/-- In front of `next`, the chunk is scanned to its piece. -/
def Chunk.Scans (c : Chunk) (next : List Char) : Prop :=
  ∀ loc, ∃ b tail, encode c.chars = b :: tail ∧
    pieceAt loc b (tail ++ encode next) = (c.content, tail.length)

theorem Chunk.Scans.scanFrom {c : Chunk} (h : c.Scans next) (loc : Location) :
    ∃ p loc', Snippet.scanFrom loc (encode (c.chars ++ next)) =
      p :: Snippet.scanFrom loc' (encode next) ∧ (p.content, p.span) = c.look := by
  obtain ⟨b, tail, hc, hpiece⟩ := h loc
  refine ⟨⟨c.content, b :: tail, loc⟩, Piece.stop ⟨c.content, b :: tail, loc⟩, ?_, by rw [look, hc]⟩
  rw [encode_append, hc, cons_append, Snippet.scanFrom, hpiece]
  dsimp only
  rw [take_left, drop_left]

/-- What follows a word or a number and does not belong to it. -/
structure Soft (next : List Char) : Prop where
  head : ∀ c ∈ next.head?, isNamePart c = false
  point : ∀ c ds, next = '.' :: c :: ds → c.isDigit = false

theorem Chunk.scans_blank (next : List Char) : Chunk.blank.Scans next :=
  fun _ => ⟨32, [], rfl, rfl⟩

/-! ## Words -/

theorem ascii_of_isNamePart (h : isNamePart c = true) : c.toNat < 0x80 := by
  have hle : ∀ d : Char, c ≤ d → c.toNat ≤ d.toNat := fun d hd => hd
  unfold isNamePart isNameStart at h
  simp only [Bool.or_eq_true, Bool.and_eq_true, decide_eq_true_eq, beq_iff_eq] at h
  rcases h with (((h | h) | h) | h) | h
  · exact Nat.lt_of_le_of_lt (hle _ h.2) (by decide)
  · exact Nat.lt_of_le_of_lt (hle _ h.2) (by decide)
  · subst h
    decide
  · subst h
    decide
  · exact Nat.lt_of_le_of_lt (hle _ h.2) (by decide)

theorem isNamePart_of_isNameStart (h : isNameStart c = true) : isNamePart c = true := by
  rw [isNamePart, h, Bool.true_or]

theorem encode_map_byte (h : ∀ c ∈ cs, c.toNat < 0x80) : encode cs = cs.map byte := by
  induction cs with
  | nil => rfl
  | cons c cs ih =>
    rw [encode_cons_ascii (h c (mem_cons_self ..)), map_cons,
      ih fun d hd => h d (mem_cons_of_mem _ hd)]

/-- No word goes on into what is soft. -/
theorem Soft.isWordPart (h : Soft next) : ∀ b ∈ (encode next).head?, isWordPart b = false := by
  refine head?_class (by decide +kernel) fun c hc hascii => ?_
  rw [Snippet.isWordPart, byteChar_byte hascii]
  exact h.head c hc

/-- What a byte that starts a word is not. -/
theorem isWordStart_spec (b : UInt8) (h : isWordStart b = true) :
    isBlank b = false ∧ byteChar b ≠ '"' ∧ byteChar b ≠ '\'' ∧ byteChar b ≠ '/' ∧
      isDigit b = false ∧ byteChar b ≠ '.' := by
  have hb := forall_byte (p := fun b => !isWordStart b || decide (isBlank b = false ∧
    byteChar b ≠ '"' ∧ byteChar b ≠ '\'' ∧ byteChar b ≠ '/' ∧ isDigit b = false ∧
    byteChar b ≠ '.')) (by decide +kernel) b
  rw [h, Bool.not_true, Bool.false_or, decide_eq_true_iff] at hb
  exact hb

theorem Chunk.scans_word {w : String} (hw : isIdentifier w = true) (hnext : Soft next) :
    (Chunk.word w).Scans next := by
  intro loc
  unfold isIdentifier at hw
  split at hw
  · cases hw
  · rename_i c cs hchars
    rw [Bool.and_eq_true, all_eq_true] at hw
    have hc := ascii_of_isNamePart (isNamePart_of_isNameStart hw.1)
    have hcs : ∀ d ∈ cs, d.toNat < 0x80 := fun d hd => ascii_of_isNamePart (hw.2 d hd)
    refine ⟨byte c, encode cs, ?_, ?_⟩
    · show encode w.toList = _
      rw [hchars, encode_cons_ascii hc]
    · have hstart : isWordStart (byte c) = true := by
        rw [isWordStart, byteChar_byte hc]
        exact hw.1
      obtain ⟨h1, h2, h3, h4, h5, h6⟩ := isWordStart_spec _ hstart
      have hmore : (encode cs ++ encode next).takeWhile Snippet.isWordPart = encode cs := by
        refine takeWhile_append ?_ hnext.isWordPart
        rw [encode_map_byte hcs]
        intro b hb
        obtain ⟨d, hd, rfl⟩ := mem_map.1 hb
        rw [Snippet.isWordPart, byteChar_byte (hcs d hd)]
        exact hw.2 d hd
      have hdecode : decode (byte c :: encode cs) = w := by
        rw [← encode_cons_ascii hc, ← hchars, decode_encode, String.ofList_toList]
      unfold pieceAt
      simp only [h1, h2, h3, h4, h5, h6, hstart, hmore, hdecode, Bool.false_eq_true, if_false,
        decide_false, Bool.or_false, Bool.false_and, if_true]
      rfl

/-! ## Marks -/

/-- The characters that would change a mark if they followed it. -/
def Punct.clashes : Punct → List Char
  | .bang | .unequal | .equal | .less => ['=']
  | .assign => ['=', '>']
  | .pipe => ['|']
  | .amp => ['&']
  | .slash => ['/']
  | .dot => ['0', '1', '2', '3', '4', '5', '6', '7', '8', '9']
  | _ => []

/-- A mark that is neither blank, quote, digit, word nor comment. -/
theorem pieceAt_mark {loc : Location} {b : UInt8} {rest : Bytes} {p : Punct} {n : Nat}
    (hb : (!isBlank b && byteChar b ≠ '"' && byteChar b ≠ '\'' && !isDigit b &&
      !isWordStart b) = true)
    (hslash : (byteChar b = '/' && follows ['/'] rest) = false)
    (hdot : (byteChar b = '.' && rest.head?.any isDigit) = false)
    (h : markAt (byteChar b) rest = some (p, n)) : pieceAt loc b rest = (.token (.punct p), n) := by
  simp only [Bool.and_eq_true, Bool.not_eq_true', decide_not] at hb
  obtain ⟨⟨⟨⟨h1, h2⟩, h3⟩, h4⟩, h5⟩ := hb
  unfold pieceAt
  simp only [h1, h2, h3, h4, h5, h, hslash, hdot, Bool.false_eq_true, if_false, Bool.or_false]

theorem Chunk.scans_mark {p : Punct} (h : ∀ c ∈ next.head?, c ∉ p.clashes) :
    (Chunk.mark p).Scans next := by
  intro loc
  have hfollows : ∀ c cs, c.toNat < 0x80 → c ∈ p.clashes →
      follows (c :: cs) (encode next) = false :=
    fun c cs hc hp => follows_encode hc fun hhead => h c hhead hp
  cases p with
  | bang =>
    refine ⟨33, [], rfl, pieceAt_mark (by decide) rfl rfl ?_⟩
    simp only [nil_append, byteChar, markAt, hfollows '=' ['='] (by decide) (by decide),
      hfollows '=' [] (by decide) (by decide)]
    rfl
  | unequal =>
    refine ⟨33, [61], rfl, pieceAt_mark (by decide) rfl rfl ?_⟩
    simp only [cons_append, nil_append, byteChar, markAt, follows,
      hfollows '=' [] (by decide) (by decide)]
    rfl
  | equal =>
    refine ⟨61, [61], rfl, pieceAt_mark (by decide) rfl rfl ?_⟩
    simp only [cons_append, nil_append, byteChar, markAt, follows,
      hfollows '=' [] (by decide) (by decide)]
    rfl
  | assign =>
    refine ⟨61, [], rfl, pieceAt_mark (by decide) rfl rfl ?_⟩
    simp only [nil_append, byteChar, markAt, hfollows '=' ['='] (by decide) (by decide),
      hfollows '=' [] (by decide) (by decide), hfollows '>' [] (by decide) (by decide)]
    rfl
  | less =>
    refine ⟨60, [], rfl, pieceAt_mark (by decide) rfl rfl ?_⟩
    simp only [nil_append, byteChar, markAt, hfollows '=' [] (by decide) (by decide)]
    rfl
  | pipe =>
    refine ⟨124, [], rfl, pieceAt_mark (by decide) rfl rfl ?_⟩
    simp only [nil_append, byteChar, markAt, hfollows '|' [] (by decide) (by decide)]
    rfl
  | amp =>
    refine ⟨38, [], rfl, pieceAt_mark (by decide) rfl rfl ?_⟩
    simp only [nil_append, byteChar, markAt, hfollows '&' [] (by decide) (by decide)]
    rfl
  | slash =>
    refine ⟨47, [], rfl, pieceAt_mark (by decide) ?_ rfl rfl⟩
    rw [nil_append, hfollows '/' [] (by decide) (by decide), Bool.and_false]
  | dot =>
    refine ⟨46, [], rfl, pieceAt_mark (by decide) rfl ?_ rfl⟩
    have hdigit : ∀ b ∈ (encode next).head?, isDigit b = false := by
      refine head?_class (by decide +kernel) fun c hc hascii => ?_
      have hc := h c hc
      rw [← Bool.not_eq_true]
      intro hdigit
      rw [isDigit, toNat_byte hascii, Bool.and_eq_true, decide_eq_true_iff,
        decide_eq_true_iff] at hdigit
      refine hc ?_
      rw [← Char.ofNat_toNat c]
      generalize c.toNat = n at hdigit
      obtain ⟨hlow, hhigh⟩ := hdigit
      interval_cases n <;> decide
    rw [nil_append, Bool.and_eq_false_iff]
    refine Or.inr ?_
    cases hhead : (encode next).head? with
    | none => rfl
    | some b => exact hdigit b hhead
  | _ => exact ⟨_, _, rfl, rfl⟩

/-! ## Quoted texts -/

theorem Chunk.scans_quoted (s : String) (next : List Char) : (Chunk.quoted s).Scans next := by
  intro loc
  refine ⟨34, encode (s.toList.flatMap quoteChar ++ ['"']), ?_, ?_⟩
  · show encode (Text.quote s).toList = _
    rw [Text.quote, String.toList_ofList, cons_append, encode_cons_ascii (by decide)]
    rfl
  · have hpiece : pieceAt loc 34 (encode (s.toList.flatMap quoteChar ++ ['"']) ++ encode next) =
        quotedAt loc 34 (encode (s.toList.flatMap quoteChar ++ ['"']) ++ encode next) := rfl
    rw [hpiece, quotedAt, quotedRest_body]
    show (Content.token (.quoted (decode (encode _))), _) = _
    rw [decode_encode]
    rfl

end Componentry
