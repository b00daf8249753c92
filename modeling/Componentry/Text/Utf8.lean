/-!
# Texts as bytes

Snippets are scanned and measured byte by byte, so a text has two views: its characters and the
bytes of its UTF-8 form. `utf8` gives the bytes. `decode` goes back; it is total: a byte that
begins no well-formed sequence is shown as U+FFFD, one mark for each such byte.
-/

namespace Componentry

/-- A byte sequence, read from the front. -/
abbrev Bytes := List UInt8

namespace Text

/-- The UTF-8 bytes of a text. -/
def utf8 (s : String) : Bytes := s.toUTF8.data.toList

/-- The mark that stands for a byte outside every well-formed sequence. -/
def replacement : Char := Char.ofNat 0xFFFD

/-- A continuation byte in the range `low … high`. -/
def tailIn (low high : Nat) (b : UInt8) : Bool :=
  low ≤ b.toNat && b.toNat ≤ high

/-- The payload of a continuation byte. -/
def payload (b : UInt8) : Nat := b.toNat - 0x80

/-- The character that starts with the byte `b`, with the number of bytes of `rest` that belong
to it. Overlong forms, surrogates and values past the last code point start no character. -/
def leading (b : UInt8) (rest : Bytes) : Option (Char × Nat) :=
  let n := b.toNat
  if n < 0x80 then some (Char.ofNat n, 0)
  else if 0xC2 ≤ n && n ≤ 0xDF then
    match rest with
    | c :: _ =>
      if tailIn 0x80 0xBF c then some (Char.ofNat ((n - 0xC0) * 64 + payload c), 1) else none
    | _ => none
  else if 0xE0 ≤ n && n ≤ 0xEF then
    let low := if n = 0xE0 then 0xA0 else 0x80
    let high := if n = 0xED then 0x9F else 0xBF
    match rest with
    | c :: d :: _ =>
      if tailIn low high c && tailIn 0x80 0xBF d then
        some (Char.ofNat ((n - 0xE0) * 4096 + payload c * 64 + payload d), 2)
      else none
    | _ => none
  else if 0xF0 ≤ n && n ≤ 0xF4 then
    let low := if n = 0xF0 then 0x90 else 0x80
    let high := if n = 0xF4 then 0x8F else 0xBF
    match rest with
    | c :: d :: e :: _ =>
      if tailIn low high c && tailIn 0x80 0xBF d && tailIn 0x80 0xBF e then
        some (Char.ofNat
          ((n - 0xF0) * 262144 + payload c * 4096 + payload d * 64 + payload e), 3)
      else none
    | _ => none
  else none

/-- The characters of a byte sequence, with one `replacement` for each byte that belongs to no
character. -/
def decodeChars : Bytes → List Char
  | [] => []
  | b :: rest =>
    match leading b rest with
    | some (c, k) => c :: decodeChars (rest.drop k)
    | none => replacement :: decodeChars rest
termination_by bs => bs.length
decreasing_by
  all_goals simp only [List.length_drop, List.length_cons]
  all_goals omega

/-- The text that a byte sequence shows. -/
def decode (bs : Bytes) : String := String.ofList (decodeChars bs)

/-- A byte shown as the code point of the same number. -/
def byteChar (b : UInt8) : Char := Char.ofNat b.toNat

end Text

end Componentry
