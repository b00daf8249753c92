import Mathlib.Data.List.Basic
import Componentry.Text.Utf8

/-!
# Texts and their bytes

The bytes of a text are those of its characters, one after the other (`utf8_eq`), and decoding gives
the characters back (`decodeChars_encode`). A character below U+0080 is a single byte, and no byte
of any other character is below `0x80`.
-/

namespace Componentry.Text

open List

variable {c : Char}

/-- A fact about bytes, byte by byte. -/
theorem forall_byte {p : UInt8 → Bool}
    (h : (List.range 256).all (fun n => p (UInt8.ofNat n)) = true) (b : UInt8) : p b = true := by
  rw [all_eq_true] at h
  have := h b.toNat (mem_range.2 b.toNat_lt)
  rwa [UInt8.ofNat_toNat] at this

/-- The bytes of characters. -/
def encode (cs : List Char) : Bytes := cs.flatMap String.utf8EncodeChar

@[simp] theorem encode_nil : encode [] = [] := rfl

theorem encode_cons (c : Char) (cs : List Char) :
    encode (c :: cs) = String.utf8EncodeChar c ++ encode cs := rfl

theorem encode_append (cs ds : List Char) : encode (cs ++ ds) = encode cs ++ encode ds :=
  flatMap_append

theorem utf8_eq (s : String) : utf8 s = encode s.toList := by
  have hbytes : s.toUTF8 = s.toList.utf8Encode := by
    rw [String.toUTF8_eq_toByteArray, ← String.toByteArray_ofList, String.ofList_toList]
  unfold utf8 encode
  rw [hbytes, utf8Encode, data_toByteArray]

/-- The byte of a character below U+0080. -/
def byte (c : Char) : UInt8 := UInt8.ofNat c.toNat

theorem encode_ascii (h : c.toNat < 0x80) : String.utf8EncodeChar c = [byte c] := by
  unfold String.utf8EncodeChar
  exact if_pos (Nat.le_of_lt_succ h)

theorem toNat_byte (h : c.toNat < 0x80) : (byte c).toNat = c.toNat := by
  unfold byte
  rw [UInt8.toNat_ofNat']
  omega

theorem byteChar_byte (h : c.toNat < 0x80) : byteChar (byte c) = c := by
  rw [byteChar, toNat_byte h, Char.ofNat_toNat]

theorem toNat_byteChar (b : UInt8) : (byteChar b).toNat = b.toNat := by
  have hb := b.toNat_lt
  have hvalid : b.toNat.isValidChar := Or.inl (by omega)
  rw [byteChar, Char.ofNat, dif_pos hvalid]
  rfl

theorem byte_byteChar (b : UInt8) : byte (byteChar b) = b := by
  rw [byte, toNat_byteChar, UInt8.ofNat_toNat]

theorem encode_cons_ascii (h : c.toNat < 0x80) (cs : List Char) :
    encode (c :: cs) = byte c :: encode cs := by
  rw [encode_cons, encode_ascii h]
  rfl

/-- The bytes of characters below U+0080 are their numbers. -/
theorem encode_map_byteChar {bs : Bytes} (h : ∀ b ∈ bs, (byteChar b).toNat < 0x80) :
    encode (bs.map byteChar) = bs := by
  induction bs with
  | nil => rfl
  | cons b bs ih =>
    rw [map_cons, encode_cons_ascii (h b (mem_cons_self ..)), byte_byteChar,
      ih fun d hd => h d (mem_cons_of_mem _ hd)]

/-- The bytes of a character past U+007F are past `0x7F`. -/
theorem le_of_mem_encode (h : 0x80 ≤ c.toNat) {b : UInt8} (hb : b ∈ String.utf8EncodeChar c) :
    0x80 ≤ b.toNat := by
  have hv : ¬ c.val.toNat ≤ 0x7f := Nat.not_le_of_lt h
  unfold String.utf8EncodeChar at hb
  dsimp only at hb
  rw [if_neg hv] at hb
  split at hb
  · simp only [mem_cons, not_mem_nil, or_false] at hb
    rcases hb with rfl | rfl <;> (rw [UInt8.toNat_ofNat']; omega)
  · split at hb
    · simp only [mem_cons, not_mem_nil, or_false] at hb
      rcases hb with rfl | rfl | rfl <;> (rw [UInt8.toNat_ofNat']; omega)
    · simp only [mem_cons, not_mem_nil, or_false] at hb
      rcases hb with rfl | rfl | rfl | rfl <;> (rw [UInt8.toNat_ofNat']; omega)

section Leading

variable {v : Nat} {b c d e : UInt8} {rest : Bytes}

theorem tailIn_of_bounds {low high : Nat} (hlow : low ≤ b.toNat) (hhigh : b.toNat ≤ high) :
    tailIn low high b = true := by
  rw [tailIn, Bool.and_eq_true, decide_eq_true_iff, decide_eq_true_iff]
  exact ⟨hlow, hhigh⟩

theorem leading_two (hv : 0x80 ≤ v ∧ v ≤ 0x7ff) (hb : b.toNat = v / 64 + 0xc0)
    (hc : c.toNat = v % 64 + 0x80) : leading b (c :: rest) = some (Char.ofNat v, 1) := by
  have hrange : (0xC2 ≤ b.toNat && b.toNat ≤ 0xDF) = true :=
    tailIn_of_bounds (by omega) (by omega)
  have hvalue : (b.toNat - 0xC0) * 64 + payload c = v := by
    unfold payload
    omega
  unfold leading
  dsimp only
  rw [if_neg (by omega), if_pos hrange, if_pos (tailIn_of_bounds (by omega) (by omega)), hvalue]

theorem leading_three (hv : 0x800 ≤ v ∧ v ≤ 0xffff) (hvalid : v < 0xd800 ∨ 0xdfff < v)
    (hb : b.toNat = v / 4096 + 0xe0) (hc : c.toNat = v / 64 % 64 + 0x80)
    (hd : d.toNat = v % 64 + 0x80) : leading b (c :: d :: rest) = some (Char.ofNat v, 2) := by
  have hrange : (0xE0 ≤ b.toNat && b.toNat ≤ 0xEF) = true :=
    tailIn_of_bounds (by omega) (by omega)
  have htail : (tailIn (if b.toNat = 0xE0 then 0xA0 else 0x80)
      (if b.toNat = 0xED then 0x9F else 0xBF) c && tailIn 0x80 0xBF d) = true := by
    rw [Bool.and_eq_true]
    refine ⟨tailIn_of_bounds ?_ ?_, tailIn_of_bounds (by omega) (by omega)⟩
    · split <;> omega
    · split <;> omega
  have hvalue : (b.toNat - 0xE0) * 4096 + payload c * 64 + payload d = v := by
    unfold payload
    omega
  unfold leading
  dsimp only
  rw [if_neg (by omega), if_neg (by simp; omega), if_pos hrange, if_pos htail, hvalue]

theorem leading_four (hv : 0x10000 ≤ v ∧ v < 0x110000)
    (hb : b.toNat = v / 262144 + 0xf0) (hc : c.toNat = v / 4096 % 64 + 0x80)
    (hd : d.toNat = v / 64 % 64 + 0x80) (he : e.toNat = v % 64 + 0x80) :
    leading b (c :: d :: e :: rest) = some (Char.ofNat v, 3) := by
  have hrange : (0xF0 ≤ b.toNat && b.toNat ≤ 0xF4) = true :=
    tailIn_of_bounds (by omega) (by omega)
  have htail : (tailIn (if b.toNat = 0xF0 then 0x90 else 0x80)
      (if b.toNat = 0xF4 then 0x8F else 0xBF) c && tailIn 0x80 0xBF d && tailIn 0x80 0xBF e) =
      true := by
    rw [Bool.and_eq_true, Bool.and_eq_true]
    refine ⟨⟨tailIn_of_bounds ?_ ?_, tailIn_of_bounds (by omega) (by omega)⟩,
      tailIn_of_bounds (by omega) (by omega)⟩
    · split <;> omega
    · split <;> omega
  have hvalue : (b.toNat - 0xF0) * 262144 + payload c * 4096 + payload d * 64 + payload e = v := by
    unfold payload
    omega
  unfold leading
  dsimp only
  rw [if_neg (by omega), if_neg (by simp; omega), if_neg (by simp; omega), if_pos hrange,
    if_pos htail, hvalue]

end Leading

/-- The first byte of a character leads to the character. -/
theorem leading_encode (c : Char) (rest : Bytes) : ∃ b tail, String.utf8EncodeChar c = b :: tail ∧
      leading b (tail ++ rest) = some (c, tail.length) := by
  have hvalid : c.val.toNat < 0xd800 ∨ 0xdfff < c.val.toNat ∧ c.val.toNat < 0x110000 := c.valid
  have hchar : Char.ofNat c.val.toNat = c := Char.ofNat_toNat c
  unfold String.utf8EncodeChar
  dsimp only
  generalize c.val.toNat = v at hvalid hchar
  subst hchar
  split
  · refine ⟨_, _, rfl, ?_⟩
    have hn : (UInt8.ofNat v).toNat = v := by
      rw [UInt8.toNat_ofNat']
      omega
    unfold leading
    dsimp only
    rw [hn, if_pos (by omega)]
    rfl
  · split
    · refine ⟨_, _, rfl, leading_two (by omega) ?_ ?_⟩
      all_goals
        rw [UInt8.toNat_ofNat']
        omega
    · split
      · refine ⟨_, _, rfl, leading_three (by omega) (by omega) ?_ ?_ ?_⟩
        all_goals
          rw [UInt8.toNat_ofNat']
          omega
      · refine ⟨_, _, rfl, leading_four (by omega) ?_ ?_ ?_ ?_⟩
        all_goals
          rw [UInt8.toNat_ofNat']
          omega

/-- What goes through bytes character by character goes through the characters. -/
theorem eq_flatMap_of_leading {f : Bytes → List Char} {g : Char → List Char} (hnil : f [] = [])
    (hcons : ∀ {b rest c k}, leading b rest = some (c, k) → f (b :: rest) = g c ++ f (rest.drop k))
    (cs : List Char) : f (encode cs) = cs.flatMap g := by
  induction cs with
  | nil => exact hnil
  | cons c cs ih =>
    obtain ⟨b, tail, hc, hleading⟩ := leading_encode c (encode cs)
    rw [encode_cons, hc, cons_append, hcons hleading, drop_left, ih, flatMap_cons]

/-- Decoding gives the characters back. -/
theorem decodeChars_encode (cs : List Char) : decodeChars (encode cs) = cs := by
  have hchars : decodeChars (encode cs) = cs.flatMap fun c => [c] := by
    refine eq_flatMap_of_leading (by rw [decodeChars]) (fun {b rest c k} h => ?_) cs
    rw [decodeChars, h]
    rfl
  rw [hchars, flatMap_singleton']

theorem decode_encode (cs : List Char) : decode (encode cs) = String.ofList cs := by
  rw [decode, decodeChars_encode]

end Componentry.Text
