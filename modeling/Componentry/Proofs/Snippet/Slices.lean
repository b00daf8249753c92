import Componentry.Proofs.Text.Utf8
import Componentry.Snippet.Scan
import Mathlib.Data.List.TakeWhile

/-!
# The slices of a text

Scanning cuts a text into slices, from left to right. `Slice` says what a slice can be, by its
bytes and by what follows it: a blank byte, a comment up to the end of its line, a quoted text, a
number, a word, a mark, or a stray byte. `pieceAt_slice` is the law for one step of scanning, and
everything else is derived from it.

`Cut` puts the slices of a text beside its tokens and its faults. A slice is the lexeme of one
token, or the span of one fault, or it is blank and leaves neither; so nothing of the text is lost,
and nothing is reported twice (`scan_lossless`).
-/

namespace Componentry.Snippet

open Text List

variable {b : UInt8} {bs : Bytes}

/-! ## Forms of slices -/

/-- A byte that may stand in a number. -/
def isNumberPart (b : UInt8) : Bool := isDigitPart b || [46, 101, 69, 43, 45].contains b

/-- What comes next is the end of a line. -/
def LineEnds (next : Bytes) : Prop := ∀ b ∈ next.head?, b = lineFeed

/-- The bytes are a single blank, or begin like a comment. -/
def looksBlank : Bytes → Bool
  | [] => false
  | b :: rest => rest.isEmpty && isBlank b || b == 47 && rest.head? == some 47

/-- Bytes between quotes and the value they stand for: escapes, and bytes that are neither the quote
nor a line feed nor a backslash. -/
inductive QuotedBody (quote : UInt8) : Bytes → Bytes → Prop
  | nil : QuotedBody quote [] []
  | plain {b : UInt8} {body value : Bytes} (hquote : b ≠ quote) (hline : b ≠ lineFeed)
      (hslash : b ≠ 92) (h : QuotedBody quote body value) :
      QuotedBody quote (b :: body) (b :: value)
  | escape (e : UInt8) {body value : Bytes} (h : QuotedBody quote body value) :
      QuotedBody quote (92 :: e :: body) (unescape e ++ value)

/-- The slice, scanned in front of `next`, and what it holds. -/
inductive Slice (next : Bytes) : Content → Bytes → Prop
  | blank {b : UInt8} (hb : isBlank b = true) : Slice next .blank [b]
  | comment {text : Bytes} (htext : lineFeed ∉ text) (hnext : LineEnds next) :
      Slice next .blank (47 :: 47 :: text)
  | quoted {quote : UInt8} {body value : Bytes} (hquote : quote ∈ [34, 39])
      (hbody : QuotedBody quote body value) :
      Slice next (.token (.quoted (decode value))) (quote :: (body ++ [quote]))
  /-- A quoted text that the end of its line cuts off; a backslash may be the very last byte. -/
  | unterminated {quote : UInt8} {body value last : Bytes} {opened : Location}
      (hquote : quote ∈ [34, 39]) (hbody : QuotedBody quote body value) (hnext : LineEnds next)
      (hlast : last = [] ∨ last = [92] ∧ next = []) :
      Slice next (.fault (.unterminated opened)) (quote :: (body ++ last))
  | number {first : UInt8} {more : Bytes} {content : Content}
      (hfirst : isDigit first = true ∨ first = 46) (hmore : ∀ b ∈ more, isNumberPart b = true)
      (hcontent : (∃ v, content = .token (.number v)) ∨ content = .fault .bareExponent ∨
        content = .fault (.badNumber (first :: more))) :
      Slice next content (first :: more)
  | word {first : UInt8} {more : Bytes} (hfirst : isWordStart first = true)
      (hmore : ∀ b ∈ more, isWordPart b = true) (hnext : ∀ b ∈ next.head?, isWordPart b = false) :
      Slice next (.token (.word (decode (first :: more)))) (first :: more)
  | mark (m : Punct) : Slice next (.token (.punct m)) (utf8 m.spelling)
  | unexpected {b : UInt8} (hb : isBlank b = false) : Slice next (.fault (.unexpected b)) [b]

variable {next rest slice : Bytes} {content : Content} {n : Nat}

theorem Slice.ne_nil (h : Slice next content slice) : slice ≠ [] := by
  cases h with
  | mark m => cases m <;> decide
  | _ => exact cons_ne_nil _ _

theorem Slice.kind_ne_done {k : TokenKind} (h : Slice next (.token k) slice) : k ≠ .done := by
  rintro rfl
  generalize hcontent : Content.token .done = content at h
  cases h with
  | number hfirst hmore hcase =>
    subst hcontent
    simp at hcase
  | _ => cases hcontent

/-- The bytes that quoted texts, numbers and words begin with begin nothing blank. -/
theorem looksBlank_cons (more : Bytes)
    (hb : (isDigit b || isWordStart b || [34, 39, 46].contains b) = true) :
    looksBlank (b :: more) = false := by
  have hbyte := forall_byte
    (p := fun b => !(isDigit b || isWordStart b || [34, 39, 46].contains b) ||
      !isBlank b && b != 47) (by decide +kernel) b
  rw [hb, Bool.not_true, Bool.false_or, Bool.and_eq_true, Bool.not_eq_true', bne_iff_ne] at hbyte
  rw [looksBlank, hbyte.1, beq_eq_false_iff_ne.2 hbyte.2, Bool.and_false, Bool.false_and,
    Bool.or_false]

/-- Whether a slice is blank can be seen from its bytes. -/
theorem Slice.looksBlank_iff (h : Slice next content slice) :
    looksBlank slice = true ↔ content = .blank := by
  cases h with
  | blank hb => simp [looksBlank, hb]
  | comment htext hnext => simp [looksBlank]
  | quoted hquote hbody | unterminated hquote hbody hnext hlast =>
    rw [looksBlank_cons]
    · simp
    · simp only [mem_cons, not_mem_nil, or_false] at hquote
      rcases hquote with rfl | rfl <;> decide
  | number hfirst hmore hcase =>
    rw [looksBlank_cons]
    · rcases hcase with ⟨v, rfl⟩ | rfl | rfl <;> simp
    · rcases hfirst with hfirst | rfl
      · rw [hfirst, Bool.true_or, Bool.true_or]
      · decide
  | word hfirst hmore hnext =>
    rw [looksBlank_cons]
    · simp
    · rw [hfirst, Bool.or_true, Bool.true_or]
  | mark m => cases m <;> decide
  | unexpected hb => simp [looksBlank, hb]

/-! ## One step -/

theorem quotedRest_cases (quote : UInt8) (rest : Bytes) {value : Bytes} {closed : Bool}
    (h : quotedRest quote rest = (value, n, closed)) :
    ∃ body, QuotedBody quote body value ∧
      ((closed = true ∧ ∃ next, rest = body ++ quote :: next ∧ n = body.length + 1) ∨
        closed = false ∧ ∃ last next, rest = body ++ (last ++ next) ∧ n = (body ++ last).length ∧
          LineEnds next ∧ (last = [] ∨ last = [92] ∧ next = [])) := by
  induction rest using quotedRest.induct quote generalizing value n closed with
  | case1 =>
    cases h
    exact ⟨[], .nil, Or.inr ⟨rfl, [], [], rfl, rfl, by simp [LineEnds], Or.inl rfl⟩⟩
  | case2 rest =>
    rw [quotedRest.eq_def] at h
    simp only [if_true] at h
    cases h
    exact ⟨[], .nil, Or.inl ⟨rfl, rest, rfl, rfl⟩⟩
  | case3 rest hquote =>
    rw [quotedRest.eq_def] at h
    simp only [hquote, if_true, if_false] at h
    cases h
    refine ⟨[], .nil, Or.inr ⟨rfl, [], lineFeed :: rest, rfl, rfl, ?_, Or.inl rfl⟩⟩
    rintro b ⟨rfl⟩
    rfl
  | case4 hquote hline =>
    rw [quotedRest, if_neg hquote, if_neg hline, if_pos rfl] at h
    cases h
    exact ⟨[], .nil, Or.inr ⟨rfl, [92], [], rfl, rfl, by simp [LineEnds], Or.inr ⟨rfl, rfl⟩⟩⟩
  | case5 e more value' m closed' hmore hquote hline ih =>
    rw [quotedRest, if_neg hquote, if_neg hline, if_pos rfl] at h
    dsimp only at h
    rw [hmore] at h
    cases h
    obtain ⟨body, hbody, hend⟩ := ih hmore
    refine ⟨92 :: e :: body, .escape e hbody, ?_⟩
    rcases hend with ⟨hclosed, next, rfl, rfl⟩ | ⟨hclosed, last, next, rfl, rfl, hnext, hlast⟩
    · exact Or.inl ⟨hclosed, next, rfl, rfl⟩
    · exact Or.inr ⟨hclosed, last, next, rfl, rfl, hnext, hlast⟩
  | case6 b rest hquote hline hslash value' m closed' hrest ih =>
    rw [quotedRest.eq_def] at h
    simp only [hquote, hline, hslash, if_false, hrest] at h
    cases h
    obtain ⟨body, hbody, hend⟩ := ih hrest
    refine ⟨b :: body, .plain hquote hline hslash hbody, ?_⟩
    rcases hend with ⟨hclosed, next, rfl, rfl⟩ | ⟨hclosed, last, next, rfl, rfl, hnext, hlast⟩
    · exact Or.inl ⟨hclosed, next, rfl, rfl⟩
    · exact Or.inr ⟨hclosed, last, next, rfl, rfl, hnext, hlast⟩

theorem quotedAt_slice {loc : Location} {quote : UInt8} (hquote : quote ∈ [34, 39])
    (h : quotedAt loc quote rest = (content, n)) :
    Slice (rest.drop n) content (quote :: rest.take n) := by
  unfold quotedAt at h
  rcases hrest : quotedRest quote rest with ⟨value, m, closed⟩
  obtain ⟨body, hbody, ⟨rfl, next, hsplit, rfl⟩ | ⟨rfl, last, next, hsplit, rfl, hnext, hlast⟩⟩ :=
    quotedRest_cases quote rest hrest
  · rw [hrest] at h
    cases h
    have hwhole : rest = (body ++ [quote]) ++ next := by rw [hsplit, append_assoc]; rfl
    have hlength : body.length + 1 = (body ++ [quote]).length := by rw [length_append]; rfl
    rw [hwhole, hlength, take_left, drop_left]
    exact .quoted hquote hbody
  · rw [hrest] at h
    cases h
    rw [hsplit, ← append_assoc, take_left, drop_left]
    exact .unterminated hquote hbody hnext hlast

/-- The longest run of bytes of a class ends where the first byte stands that is not in it. -/
theorem take_run (p : UInt8 → Bool) (bs : Bytes) :
    bs.take (bs.takeWhile p).length = bs.takeWhile p ∧
      ∀ b ∈ (bs.drop (bs.takeWhile p).length).head?, p b = false := by
  induction bs with
  | nil => exact ⟨rfl, by simp⟩
  | cons b bs ih =>
    cases hb : p b with
    | true =>
      rw [takeWhile_cons_of_pos hb, length_cons, take_succ_cons, drop_succ_cons, ih.1]
      exact ⟨rfl, ih.2⟩
    | false =>
      rw [takeWhile_cons_of_neg (by rw [hb]; decide)]
      refine ⟨rfl, ?_⟩
      rintro d ⟨rfl⟩
      exact hb

theorem isNumberPart_of_isDigitPart (h : isDigitPart b = true) : isNumberPart b = true := by
  rw [isNumberPart, h, Bool.true_or]

theorem isNumberPart_of_isDigit (h : isDigit b = true) : isNumberPart b = true :=
  isNumberPart_of_isDigitPart (by rw [isDigitPart, h, Bool.true_or])

/-- The point of a number and the letter and sign of an exponent. -/
theorem isNumberPart_of_byteChar (h : byteChar b ∈ ['.', 'e', 'E', '+', '-']) :
    isNumberPart b = true := by
  have hbyte := forall_byte (p := fun b => !(['.', 'e', 'E', '+', '-'].contains (byteChar b)) ||
    isNumberPart b) (by decide +kernel) b
  rwa [contains_iff_mem.2 h, Bool.not_true, Bool.false_or] at hbyte

theorem placesAt_parts {ds : Bytes} (h : placesAt bs = some ds) :
    ∀ b ∈ bs.take (ds.length + 1), isNumberPart b = true := by
  unfold placesAt at h
  split at h
  · rename_i p d rest
    split at h
    · rename_i hpoint
      rw [Bool.and_eq_true, beq_iff_eq] at hpoint
      cases h
      rw [length_cons, take_succ_cons, take_succ_cons, (take_run _ _).1]
      intro b hb
      rcases mem_cons.1 hb with rfl | hb
      · exact isNumberPart_of_byteChar (by rw [hpoint.1]; decide)
      rcases mem_cons.1 hb with rfl | hb
      · exact isNumberPart_of_isDigit hpoint.2
      · exact isNumberPart_of_isDigitPart (mem_takeWhile_imp hb)
    · cases h
  · cases h

/-- The width of an exponent is that of its letter, its sign and its digits. -/
theorem exponentAt_width {e : UInt8} {power : Option Int}
    (h : exponentAt (e :: rest) = some (power, n)) :
    (byteChar e = 'e' ∨ byteChar e = 'E') ∧ n = 1 + (if follows ['+'] rest || follows ['-'] rest
        then 1 + ((rest.drop 1).takeWhile isDigit).length
        else (rest.takeWhile isDigit).length) := by
  unfold exponentAt at h
  dsimp only at h
  split at h
  · rename_i hletter
    rw [Bool.or_eq_true, beq_iff_eq, beq_iff_eq] at hletter
    refine ⟨hletter, ?_⟩
    cases hsigned : follows ['+'] rest || follows ['-'] rest <;> rw [hsigned] at h <;>
      simp only [if_true, if_false, Bool.false_eq_true] at h ⊢ <;> split at h <;> cases h <;> omega
  · cases h

theorem exponentAt_parts {power : Option Int} (h : exponentAt bs = some (power, n)) :
    ∀ b ∈ bs.take n, isNumberPart b = true := by
  cases bs with
  | nil => cases h
  | cons e rest =>
    obtain ⟨hletter, rfl⟩ := exponentAt_width h
    have hfirst : isNumberPart e = true := by
      refine isNumberPart_of_byteChar ?_
      rcases hletter with hletter | hletter <;> rw [hletter] <;> decide
    have hdigits : ∀ bs : Bytes, ∀ b ∈ bs.take (bs.takeWhile isDigit).length,
        isNumberPart b = true := by
      intro bs b hb
      rw [(take_run _ _).1] at hb
      exact isNumberPart_of_isDigit (mem_takeWhile_imp hb)
    rw [Nat.add_comm 1, take_succ_cons]
    refine forall_mem_cons.2 ⟨hfirst, ?_⟩
    split
    · rename_i hsigned
      cases rest with
      | nil => simp
      | cons sign digits =>
        rw [Nat.add_comm 1, take_succ_cons]
        refine forall_mem_cons.2 ⟨isNumberPart_of_byteChar ?_, hdigits digits⟩
        simp only [follows, Bool.and_true, Bool.or_eq_true, beq_iff_eq] at hsigned
        rcases hsigned with hsigned | hsigned <;> rw [hsigned] <;> decide
    · exact hdigits rest

/-- A number and its faults span bytes of numbers. -/
theorem numberAt_parts {first : UInt8} (h : numberAt first rest = (content, n)) :
    (∀ b ∈ rest.take n, isNumberPart b = true) ∧
      ((∃ v, content = .token (.number v)) ∨ content = .fault .bareExponent ∨
        content = .fault (.badNumber (first :: rest.take n))) := by
  -- the digits in front and the places, and then the exponent behind them
  have hmantissa : ∀ b ∈ rest.take ((rest.takeWhile isDigitPart).length +
      ((placesAt (rest.drop (rest.takeWhile isDigitPart).length)).map (·.length + 1)).getD 0),
      isNumberPart b = true := by
    intro b hb
    rw [take_add, mem_append, (take_run _ _).1] at hb
    rcases hb with hb | hb
    · exact isNumberPart_of_isDigitPart (mem_takeWhile_imp hb)
    · cases hplaces : placesAt (rest.drop (rest.takeWhile isDigitPart).length) with
      | none =>
        rw [hplaces] at hb
        simp at hb
      | some ds =>
        rw [hplaces] at hb
        exact placesAt_parts hplaces b hb
  unfold numberAt at h
  dsimp only at h
  generalize (rest.takeWhile isDigitPart).length +
    ((placesAt (rest.drop (rest.takeWhile isDigitPart).length)).map (·.length + 1)).getD 0 = width
    at h hmantissa
  have hscaled : ∀ {power : Option Int} {k : Nat}, exponentAt (rest.drop width) = some (power, k) →
      ∀ b ∈ rest.take (width + k), isNumberPart b = true := by
    intro power k hexponent b hb
    rw [take_add, mem_append] at hb
    exact hb.elim (hmantissa b) (exponentAt_parts hexponent b)
  split at h
  · split at h <;> cases h
    · exact ⟨hmantissa, Or.inl ⟨_, rfl⟩⟩
    · exact ⟨hmantissa, Or.inr (Or.inr rfl)⟩
  · cases h
    exact ⟨hscaled ‹_›, Or.inr (Or.inl rfl)⟩
  · split at h <;> cases h
    · exact ⟨hscaled ‹_›, Or.inl ⟨_, rfl⟩⟩
    · exact ⟨hscaled ‹_›, Or.inr (Or.inr rfl)⟩

theorem follows_take {cs : List Char} (h : follows cs bs = true) :
    (bs.take cs.length).map byteChar = cs := by
  induction cs generalizing bs with
  | nil => rw [length_nil, take_zero, map_nil]
  | cons c cs ih =>
    cases bs with
    | nil => cases h
    | cons b bs =>
      rw [follows, Bool.and_eq_true, beq_iff_eq] at h
      rw [length_cons, take_succ_cons, map_cons, h.1, ih h.2]

/-- A mark spans its spelling. -/
theorem markAt_spelling {c : Char} {m : Punct} (h : markAt c rest = some (m, n)) :
    c :: (rest.take n).map byteChar = m.spelling.toList := by
  have hshort : ∀ {short : Punct}, [c] = short.spelling.toList →
      some (short, 0) = some (m, n) → c :: (rest.take n).map byteChar = m.spelling.toList := by
    intro short hshort h
    cases h
    exact hshort
  -- a mark that the characters after it would change
  have hlonger : ∀ {ds : List Char} {long : Punct} {other : Option (Punct × Nat)},
      c :: ds = long.spelling.toList →
      (other = some (m, n) → c :: (rest.take n).map byteChar = m.spelling.toList) →
      (if follows ds rest then some (long, ds.length) else other) = some (m, n) →
      c :: (rest.take n).map byteChar = m.spelling.toList := by
    intro ds long other hlong hother h
    split at h
    · next hfollows =>
        cases h
        rw [follows_take hfollows, hlong]
    · exact hother h
  unfold markAt at h
  split at h
  case h_19 => exact hlonger rfl (hlonger rfl (hshort rfl)) h
  case h_20 => exact hlonger rfl (hlonger rfl (hlonger rfl (hshort rfl))) h
  case h_21 | h_22 | h_23 => exact hlonger rfl (hshort rfl) h
  case h_24 => cases h
  all_goals exact hshort rfl h

theorem mark_slice {m : Punct} (h : markAt (byteChar b) rest = some (m, n)) :
    b :: rest.take n = utf8 m.spelling := by
  have hspelling : (b :: rest.take n).map byteChar = m.spelling.toList := markAt_spelling h
  have hascii : (m.spelling.toList.all fun c => c.toNat < 0x80) = true := by
    cases m <;> decide
  rw [utf8_eq, ← hspelling, encode_map_byteChar]
  intro d hd
  exact of_decide_eq_true (all_eq_true.1 hascii _ (hspelling ▸ mem_map_of_mem hd))

theorem eq_of_byteChar {d : UInt8} (h : byteChar b = byteChar d) : b = d := by
  rw [← byte_byteChar b, h, byte_byteChar]

theorem comment_slice (h : follows ['/'] rest = true) :
    Slice (rest.drop (rest.takeWhile (· ≠ lineFeed)).length) .blank
      (47 :: rest.take (rest.takeWhile (· ≠ lineFeed)).length) := by
  obtain ⟨htake, hnext⟩ := take_run (· ≠ lineFeed) rest
  cases rest with
  | nil => cases h
  | cons slash text =>
    simp only [follows, Bool.and_true, beq_iff_eq] at h
    obtain rfl : slash = 47 := eq_of_byteChar h
    rw [htake, takeWhile_cons_of_pos (by decide)]
    refine .comment ?_ fun b hb => by simpa using hnext b hb
    intro hline
    simpa using mem_takeWhile_imp hline

/-- **One step of scanning.** A piece that starts with `b` is a slice in front of what it leaves. -/
theorem pieceAt_slice {loc : Location} (h : pieceAt loc b rest = (content, n)) :
    Slice (rest.drop n) content (b :: rest.take n) := by
  unfold pieceAt at h
  dsimp only at h
  split at h
  · rename_i hblank
    cases h
    exact .blank hblank
  rename_i hblank
  split at h
  · rename_i hquote
    rw [Bool.or_eq_true, decide_eq_true_iff, decide_eq_true_iff] at hquote
    refine quotedAt_slice ?_ h
    rcases hquote with hquote | hquote
    · rw [eq_of_byteChar (d := 34) hquote]
      decide
    · rw [eq_of_byteChar (d := 39) hquote]
      decide
  split at h
  · rename_i hcomment
    rw [Bool.and_eq_true, decide_eq_true_iff] at hcomment
    cases h
    rw [eq_of_byteChar (d := 47) hcomment.1]
    exact comment_slice hcomment.2
  split at h
  · rename_i hnumber
    obtain ⟨hmore, hcontent⟩ := numberAt_parts h
    refine .number ?_ hmore hcontent
    rw [Bool.or_eq_true, Bool.and_eq_true, decide_eq_true_iff] at hnumber
    exact hnumber.imp_right fun hpoint => eq_of_byteChar (d := 46) hpoint.1
  split at h
  · rename_i hword
    cases h
    obtain ⟨htake, hnext⟩ := take_run isWordPart rest
    rw [htake]
    exact .word hword (fun d hd => mem_takeWhile_imp hd) hnext
  · split at h
    · rename_i hmark
      cases h
      rw [mark_slice hmark]
      exact .mark _
    · cases h
      exact .unexpected (by simpa using hblank)

/-! ## The whole text -/

/-- A text is cut into slices. Each slice is the lexeme of the next token, or the span of the next
fault, or blank; the end mark comes after the last one. Of the span of a fault the first bytes are
kept. -/
inductive Cut : Bytes → List Bytes → List Token → List ScanError → Prop
  | done {t : Token} (hkind : t.kind = .done) (hlexeme : t.lexeme = []) : Cut [] [] [t] []
  | token {slice next : Bytes} {slices : List Bytes} {t : Token} {ts : List Token}
      {es : List ScanError} (hslice : Slice next (.token t.kind) slice) (hlexeme : t.lexeme = slice)
      (hink : looksBlank slice = false) (h : Cut next slices ts es) :
      Cut (slice ++ next) (slice :: slices) (t :: ts) es
  | fault {slice next : Bytes} {slices : List Bytes} {ts : List Token} {e : ScanError}
      {es : List ScanError} (hslice : Slice next (.fault e.why) slice)
      (hlexeme : e.lexeme = slice.take 20) (hink : looksBlank slice = false)
      (h : Cut next slices ts es) : Cut (slice ++ next) (slice :: slices) ts (e :: es)
  | blank {slice next : Bytes} {slices : List Bytes} {ts : List Token} {es : List ScanError}
      (hslice : Slice next .blank slice) (hblank : looksBlank slice = true)
      (h : Cut next slices ts es) : Cut (slice ++ next) (slice :: slices) ts es

namespace Cut

variable {source : Bytes} {slices : List Bytes} {ts : List Token} {es : List ScanError}

/-- The slices make up the text. -/
theorem flatten (h : Cut source slices ts es) : slices.flatten = source := by
  induction h with
  | done => rfl
  | token _ _ _ _ ih | fault _ _ _ _ ih | blank _ _ _ ih => rw [flatten_cons, ih]

theorem ne_nil (h : Cut source slices ts es) : ∀ slice ∈ slices, slice ≠ [] := by
  induction h with
  | done => simp
  | token hslice _ _ _ ih | fault hslice _ _ _ ih | blank hslice _ _ ih =>
    exact forall_mem_cons.2 ⟨hslice.ne_nil, ih⟩

/-- There are no more slices than bytes. -/
theorem length_le (h : Cut source slices ts es) : slices.length ≤ source.length := by
  induction h with
  | done => exact le_rfl
  | token hslice _ _ _ ih | fault hslice _ _ _ ih | blank hslice _ _ ih =>
    have hpos := length_pos_iff.2 hslice.ne_nil
    rw [length_cons, length_append]
    omega

/-- The end mark is the last token, and no other token is one. -/
theorem ends (h : Cut source slices ts es) :
    ∃ us t, ts = us ++ [t] ∧ t.kind = .done ∧ ∀ u ∈ us, u.kind ≠ .done := by
  induction h with
  | @done t hkind hlexeme => exact ⟨[], t, rfl, hkind, by simp⟩
  | @token slice next slices t ts es hslice _ _ _ ih =>
    obtain ⟨us, last, rfl, hlast, hus⟩ := ih
    exact ⟨t :: us, last, rfl, hlast, forall_mem_cons.2 ⟨hslice.kind_ne_done, hus⟩⟩
  | fault _ _ _ _ ih | blank _ _ _ ih => exact ih

end Cut

/-- A text is cut into the spans of its pieces, by induction on the steps of scanning. -/
theorem cut_scanFrom {t : Token} (hkind : t.kind = .done) (hlexeme : t.lexeme = [])
    (loc : Location) (bs : Bytes) :
    Cut bs ((scanFrom loc bs).map Piece.span) ((scanFrom loc bs).filterMap Piece.token? ++ [t])
      ((scanFrom loc bs).filterMap Piece.fault?) := by
  induction loc, bs using scanFrom.induct with
  | case1 loc =>
    rw [scanFrom]
    exact .done hkind hlexeme
  | case2 loc b rest content n hpiece piece ih =>
    have hslice := pieceAt_slice hpiece
    have hsplit : b :: rest = (b :: rest.take n) ++ rest.drop n := by
      rw [cons_append, take_append_drop]
    have hscan : scanFrom loc (b :: rest) = piece :: scanFrom piece.stop (rest.drop n) := by
      rw [scanFrom, hpiece]
    rw [hscan, map_cons, hsplit]
    -- what the piece holds decides which of the lists has an entry for it
    cases content with
    | token kind =>
      have hink : looksBlank (b :: rest.take n) = false := by
        rw [← Bool.not_eq_true, hslice.looksBlank_iff]
        simp
      rw [filterMap_cons_some (f := Piece.token?) rfl, filterMap_cons_none (f := Piece.fault?) rfl]
      exact .token hslice rfl hink ih
    | fault why =>
      have hink : looksBlank (b :: rest.take n) = false := by
        rw [← Bool.not_eq_true, hslice.looksBlank_iff]
        simp
      rw [filterMap_cons_none (f := Piece.token?) rfl, filterMap_cons_some (f := Piece.fault?) rfl]
      exact .fault hslice rfl hink ih
    | blank =>
      rw [filterMap_cons_none (f := Piece.token?) rfl, filterMap_cons_none (f := Piece.fault?) rfl]
      exact .blank hslice (hslice.looksBlank_iff.2 rfl) ih

theorem cut_scan (source : Bytes) :
    Cut source ((scan source).map Piece.span) (tokens source) (faults source) :=
  cut_scanFrom rfl rfl Location.start source

/-- **Scanning loses nothing.** Every text is cut into non-empty slices, one for each step, so there
are no more steps than bytes; put together the slices are the text. Each slice is the lexeme of
exactly one token, the span of exactly one fault, or blank, and tokens and faults stand in the order
of their slices. The last token is the only end mark. -/
theorem scan_lossless (source : Bytes) :
    Cut source ((scan source).map Piece.span) (tokens source) (faults source) ∧
      ((scan source).map Piece.span).flatten = source ∧
      (∀ slice ∈ (scan source).map Piece.span, slice ≠ []) ∧
      ((scan source).map Piece.span).length ≤ source.length ∧
      ∃ us t, tokens source = us ++ [t] ∧ t.kind = .done ∧ ∀ u ∈ us, u.kind ≠ .done :=
  ⟨cut_scan source, (cut_scan source).flatten, (cut_scan source).ne_nil,
    (cut_scan source).length_le, (cut_scan source).ends⟩

end Componentry.Snippet
