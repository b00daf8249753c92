import Componentry.Proofs.Snippet.Rules
import Componentry.Proofs.Text.Quoted
import Componentry.Proofs.Text.Utf8

/-!
# Quoted texts

What is read where a quoted text stands. Quoting writes a printable character as it is and all
others as escapes; of the escapes only some are known where quoted texts are read, and the others
are kept as they are written. So the quoted form of any bytes is read as one text, without a fault
(`quotedRest_bytes`), but as the text that was quoted only if all its characters are plain
(`quoted_reread`).
-/

namespace Componentry

open Snippet Text List

variable {n : Nat} {rest value : Bytes}

/-! ## Bytes between quotes -/

/-- Bytes that mean nothing between quotes stand for themselves. -/
theorem quotedRest_append {bs : Bytes} {closed : Bool}
    (hbs : ∀ b ∈ bs, b ≠ 34 ∧ b ≠ lineFeed ∧ b ≠ 92) (h : quotedRest 34 rest = (value, n, closed)) :
    quotedRest 34 (bs ++ rest) = (bs ++ value, n + bs.length, closed) := by
  induction bs with
  | nil => exact h
  | cons b bs ih =>
    obtain ⟨h1, h2, h3⟩ := hbs b (mem_cons_self ..)
    rw [cons_append, quotedRest.eq_def]
    simp only [h1, h2, h3, if_false, ih fun d hd => hbs d (mem_cons_of_mem _ hd)]
    rfl

/-- The bytes of characters that mean something between quotes come from these characters only. -/
theorem mem_encode_ne {cs : List Char} {b : UInt8} (hb : b ∈ encode cs)
    (h : ∀ c ∈ cs, c ≠ '"' ∧ c ≠ '\n' ∧ c ≠ '\\') : b ≠ 34 ∧ b ≠ lineFeed ∧ b ≠ 92 := by
  obtain ⟨c, hc, hb⟩ := mem_flatMap.1 hb
  obtain ⟨hquote, hline, hslash⟩ := h c hc
  by_cases hascii : c.toNat < 0x80
  · rw [encode_ascii hascii, mem_singleton] at hb
    subst hb
    have hne : ∀ d : Char, d.toNat < 0x80 → c ≠ d → byte c ≠ byte d := by
      intro d hd hcd heq
      refine hcd ?_
      rw [← byteChar_byte hascii, heq, byteChar_byte hd]
    exact ⟨hne '"' (by decide) hquote, hne '\n' (by decide) hline, hne '\\' (by decide) hslash⟩
  · have hpast := le_of_mem_encode (Nat.le_of_not_lt hascii) hb
    refine ⟨?_, ?_, ?_⟩ <;>
      (rintro rfl; exact absurd hpast (by decide))

/-- An escape between quotes. -/
theorem quotedRest_escape {e : UInt8} {closed : Bool}
    (h : quotedRest 34 rest = (value, n, closed)) :
    quotedRest 34 (92 :: e :: rest) = (unescape e ++ value, n + 2, closed) := by
  rw [quotedRest, if_neg (by decide), if_neg (by decide), if_pos rfl]
  rw [h]

/-- An escape by number is kept as it is written. -/
theorem quotedRest_number {e : Char} {w : Nat} (he : (e, w) ∈ widths) (m : Nat)
    (h : quotedRest 34 rest = (value, n, true)) :
    quotedRest 34 (encode ('\\' :: e :: hex w m) ++ rest) = (encode ('\\' :: e :: hex w m) ++ value,
      n + (encode ('\\' :: e :: hex w m)).length, true) := by
  have hletters : ∀ p ∈ widths, p.1.toNat < 0x80 ∧ unescape (byte p.1) = [92, byte p.1] := by decide
  obtain ⟨hascii, hkept⟩ := hletters _ he
  have hdigits : quotedRest 34 (encode (hex w m) ++ rest) =
      (encode (hex w m) ++ value, n + (encode (hex w m)).length, true) := by
    refine quotedRest_append (fun b hb => mem_encode_ne hb fun d hd => ?_) h
    have hd := hex_mem hd
    refine ⟨?_, ?_, ?_⟩ <;>
      (rintro rfl; exact absurd hd (by decide +kernel))
  rw [encode_cons_ascii (by decide), encode_cons_ascii hascii, cons_append, cons_append]
  exact (quotedRest_escape hdigits).trans (by rw [hkept]; rfl)

/-- What a character is written as between quotes, and what is read there. -/
theorem quotedRest_quoteChar {c : Char} (h : quotedRest 34 rest = (value, n, true)) :
    quotedRest 34 (encode (quoteChar c) ++ rest) =
      (encode (rereadChar c) ++ value, n + (encode (quoteChar c)).length, true) := by
  obtain ⟨hform, hprint, hquote, hslash⟩ | ⟨e, hform, he⟩ | ⟨e, w, hform, he, -, hrest⟩ :=
    quoteChar_cases c
  · have hself : rereadChar c = [c] := by simp [rereadChar, hprint]
    rw [hform, hself]
    refine quotedRest_append (fun b hb => mem_encode_ne hb fun d hd => ?_) h
    rw [mem_singleton.1 hd]
    refine ⟨hquote, ?_, hslash⟩
    rintro rfl
    exact absurd hprint (by decide +kernel)
  · -- the letters that reading does not know are kept, as `rereadChar` says
    have hletters : ∀ p ∈ letters, encode ['\\', p.1] = [92, byte p.1] ∧
      unescape (byte p.1) = encode (rereadChar p.2) := by decide +kernel
    obtain ⟨hbytes, hvalue⟩ := hletters _ he
    rw [hform, hbytes, ← hvalue]
    exact quotedRest_escape h
  · rw [rereadChar, if_neg hrest, hform]
    exact quotedRest_number he _ h

/-! ## The quoted form of bytes -/

/-- What reading makes of the quoted form of bytes: the characters are read back one by one, and a
byte that belongs to none stays the escape that it is written as. -/
def Text.rereadBytes : Bytes → List Char
  | [] => []
  | b :: rest =>
    match leading b rest with
    | some (c, k) => rereadChar c ++ rereadBytes (rest.drop k)
    | none => '\\' :: 'x' :: hex 2 b.toNat ++ rereadBytes rest
termination_by bs => bs.length
decreasing_by
  all_goals simp only [List.length_drop, List.length_cons]
  all_goals omega

theorem quoteBytesBody_encode (cs : List Char) :
    quoteBytesBody (encode cs) = cs.flatMap quoteChar := by
  refine eq_flatMap_of_leading (by rw [quoteBytesBody]) (fun {b rest c k} h => ?_) cs
  rw [quoteBytesBody, h]

theorem rereadBytes_encode (cs : List Char) : rereadBytes (encode cs) = cs.flatMap rereadChar := by
  refine eq_flatMap_of_leading (by rw [rereadBytes]) (fun {b rest c k} h => ?_) cs
  rw [rereadBytes, h]

/-- Quoting a text is quoting its bytes. -/
theorem quoteBytes_utf8 (s : String) : quoteBytes (utf8 s) = quote s := by
  rw [quoteBytes, utf8_eq, quoteBytesBody_encode, quote]

theorem length_encode_append (cs ds : List Char) :
    (encode (cs ++ ds)).length = (encode ds).length + (encode cs).length := by
  rw [encode_append, length_append, Nat.add_comm]

/-- The body of quoted bytes and its closing quote. -/
theorem quotedRest_bytes (bs rest : Bytes) :
    quotedRest 34 (encode (quoteBytesBody bs ++ ['"']) ++ rest) =
      (encode (rereadBytes bs), (encode (quoteBytesBody bs ++ ['"'])).length, true) := by
  induction bs using quoteBytesBody.induct with
  | case1 =>
    rw [quoteBytesBody, rereadBytes]
    rw [quotedRest.eq_def]
    rfl
  | case2 b bs c k hleading ih =>
    rw [quoteBytesBody, rereadBytes, hleading]
    rw [append_assoc, length_encode_append, encode_append, append_assoc,
      quotedRest_quoteChar ih, encode_append (rereadChar c)]
  | case3 b bs hleading ih =>
    rw [quoteBytesBody, rereadBytes, hleading]
    rw [append_assoc, length_encode_append, encode_append, append_assoc,
      quotedRest_number (by decide) _ ih, ← encode_append]

/-- The body of a quoted text and its closing quote. -/
theorem quotedRest_body (cs : List Char) (rest : Bytes) :
    quotedRest 34 (encode (cs.flatMap quoteChar ++ ['"']) ++ rest) =
      (encode (cs.flatMap rereadChar), (encode (cs.flatMap quoteChar ++ ['"'])).length, true) := by
  rw [← quoteBytesBody_encode, ← rereadBytes_encode]
  exact quotedRest_bytes (encode cs) rest

/-- The text that is read where the quoted form of `s` stands, from the bytes of `s`. -/
theorem ofList_rereadBytes (s : String) : String.ofList (rereadBytes (utf8 s)) = reread s := by
  rw [utf8_eq, rereadBytes_encode, reread]

/-! ## Texts that are read back -/

/-- Every character that is not plain makes what is read longer than what was quoted. -/
theorem length_reread_ge (cs : List Char) :
    cs.length + cs.countP (fun c => !(isPrintable c || c = '\t' || c = '\n' || c = '\r')) ≤
      (cs.flatMap rereadChar).length := by
  induction cs with
  | nil => exact Nat.le_refl _
  | cons c cs ih =>
    rw [flatMap_cons, length_append, length_cons, countP_cons]
    by_cases hplain : (isPrintable c || c = '\t' || c = '\n' || c = '\r') = true
    · rw [rereadChar, if_pos hplain, hplain, length_singleton]
      simp only [Bool.not_true, Bool.false_eq_true, if_false]
      omega
    · have hlength : 2 ≤ (quoteChar c).length := by
        obtain ⟨-, hprint, -⟩ | ⟨e, h, -⟩ | ⟨e, w, h, -⟩ := quoteChar_cases c
        · simp [hprint] at hplain
        all_goals simp [h]
      have hcounted := Bool.eq_false_of_not_eq_true hplain
      rw [rereadChar, if_neg hplain, if_pos (by rw [hcounted]; rfl)]
      omega

/-- The plain texts are those that are read back. -/
theorem reread_eq_self_iff {s : String} : reread s = s ↔ Text.isPlain s = true := by
  refine ⟨fun h => ?_, reread_of_isPlain⟩
  have hchars : s.toList.flatMap rereadChar = s.toList := by
    conv_rhs => rw [← h]
    rw [reread, String.toList_ofList]
  have hlength := length_reread_ge s.toList
  rw [hchars] at hlength
  have hnone : s.toList.countP
      (fun c => !(isPrintable c || c = '\t' || c = '\n' || c = '\r')) = 0 := by omega
  rw [Text.isPlain, all_eq_true]
  intro c hc
  have := countP_eq_zero.1 hnone c hc
  simpa only [Bool.not_eq_true', Bool.not_eq_false] using this

theorem utf8_quoteBytes (bs : Bytes) :
    utf8 (quoteBytes bs) = 34 :: encode (quoteBytesBody bs ++ ['"']) := by
  rw [utf8_eq, quoteBytes, String.toList_ofList, cons_append, encode_cons_ascii (by decide)]
  rfl

/-- Quoted bytes are one piece. -/
theorem scan_quoteBytes (bs : Bytes) : scan (utf8 (quoteBytes bs)) =
      [⟨.token (.quoted (String.ofList (rereadBytes bs))), utf8 (quoteBytes bs), .start⟩] := by
  have hrest := quotedRest_bytes bs []
  rw [append_nil] at hrest
  have hpiece : pieceAt .start 34 (encode (quoteBytesBody bs ++ ['"'])) =
      (.token (.quoted (String.ofList (rereadBytes bs))),
        (encode (quoteBytesBody bs ++ ['"'])).length) := by
    show quotedAt .start 34 _ = _
    rw [quotedAt, hrest]
    show (Content.token (.quoted (decode (encode _))), _) = _
    rw [decode_encode]
  rw [utf8_quoteBytes, scan, scanFrom, hpiece]
  dsimp only
  rw [take_length, drop_length, scanFrom]

/-- **Quoted texts are read as one token.** The quoted form of any bytes, which for the bytes of a
text is the source of the literal, is read without a fault as one quoted text and the end mark. The
value that is read has the bytes that were quoted exactly if they are those of a plain text: all
other escapes stay in the value as they are written. -/
theorem quoted_reread (bs : Bytes) : faults (utf8 (quoteBytes bs)) = [] ∧
      tokens (utf8 (quoteBytes bs)) =
        [⟨.quoted (String.ofList (rereadBytes bs)), utf8 (quoteBytes bs), .start⟩,
          ⟨.done, [], Location.start.advance (utf8 (quoteBytes bs)).length⟩] ∧
      (utf8 (String.ofList (rereadBytes bs)) = bs ↔ ∃ s, utf8 s = bs ∧ Text.isPlain s = true) ∧
      ∀ s : String, utf8 s = bs → (Literal.text s).source = quoteBytes bs ∧
        String.ofList (rereadBytes bs) = reread s ∧ (reread s = s ↔ Text.isPlain s = true) := by
  refine ⟨?_, ?_, ⟨?_, ?_⟩, ?_⟩
  · rw [faults, scan_quoteBytes]
    rfl
  · rw [tokens, scan_quoteBytes, utf8_quoteBytes]
    rfl
  · intro h
    -- what is read is a text with the bytes that were quoted, so reading changes none of it
    refine ⟨_, h, reread_eq_self_iff.1 ?_⟩
    rw [← ofList_rereadBytes, h]
  · rintro ⟨s, rfl, hplain⟩
    rw [ofList_rereadBytes, reread_of_isPlain hplain]
  · rintro s rfl
    exact ⟨(quoteBytes_utf8 s).symm, ofList_rereadBytes s, reread_eq_self_iff⟩

/-- The bell is written as an escape that is read as two characters; a text with a quote, a
backslash and a line feed is read back. -/
theorem quoted_reread_bell : (Literal.text "\x07").source = "\"\\a\"" ∧ tokens (utf8 "\"\\a\"") =
        [⟨.quoted "\\a", utf8 "\"\\a\"", ⟨1, 1⟩⟩, ⟨.done, [], ⟨1, 5⟩⟩] ∧
      reread "\x07" = "\\a" ∧ reread "a\"\\\n" = "a\"\\\n" := by
  have hbell : quoteBytes (utf8 "\x07") = "\"\\a\"" := by
    rw [quoteBytes_utf8]
    decide +kernel
  have hvalue : reread "\x07" = "\\a" := by decide +kernel
  obtain ⟨-, htokens, -, htext⟩ := quoted_reread (utf8 "\x07")
  obtain ⟨hsource, hread, -⟩ := htext "\x07" rfl
  rw [hread, hbell, hvalue] at htokens
  refine ⟨hsource.trans hbell, htokens, hvalue, ?_⟩
  exact ((quoted_reread _).2.2.2 _ rfl).2.2.2 (by decide +kernel)

end Componentry
