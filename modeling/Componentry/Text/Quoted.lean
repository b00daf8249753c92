import Componentry.Text.Printable
import Componentry.Text.Utf8

/-!
# Quoted texts

`quote` writes a text between double quotes. Printable characters stand for themselves, except the
quote and the backslash; seven control characters have one-letter escapes; every other character
is written by its number in hexadecimal: `\x` with two digits below U+0080, `\u` with four, and
`\U` with eight from U+10000 on. `quoteBytes` does the same for bytes that need not be a text: a
byte that belongs to no character is written by its number.

`isIdentifier` tells the names that may stand unquoted as a key, and `keyText` writes a key.
-/

namespace Componentry.Text

/-- A small hexadecimal digit. -/
def hexDigit (n : Nat) : Char :=
  if n % 16 < 10 then Char.ofNat (48 + n % 16) else Char.ofNat (87 + n % 16)

/-- What a hexadecimal digit stands for. -/
def hexValue? (c : Char) : Option Nat :=
  if '0' ≤ c && c ≤ '9' then some (c.toNat - 48)
  else if 'a' ≤ c && c ≤ 'f' then some (c.toNat - 87)
  else if 'A' ≤ c && c ≤ 'F' then some (c.toNat - 55)
  else none

/-- The last `width` hexadecimal digits of a number. -/
def hex (width : Nat) (n : Nat) : List Char :=
  match width with
  | 0 => []
  | w + 1 => hex w (n / 16) ++ [hexDigit n]

/-- One character as it stands between the quotes. -/
def quoteChar (c : Char) : List Char :=
  if c = '"' then ['\\', '"']
  else if c = '\\' then ['\\', '\\']
  else if isPrintable c then [c]
  else match c.toNat with
    | 7 => ['\\', 'a']
    | 8 => ['\\', 'b']
    | 9 => ['\\', 't']
    | 10 => ['\\', 'n']
    | 11 => ['\\', 'v']
    | 12 => ['\\', 'f']
    | 13 => ['\\', 'r']
    | n =>
      if n < 0x80 then '\\' :: 'x' :: hex 2 n
      else if n < 0x10000 then '\\' :: 'u' :: hex 4 n
      else '\\' :: 'U' :: hex 8 n

def quote (s : String) : String :=
  String.ofList ('"' :: s.toList.flatMap quoteChar ++ ['"'])

/-- The bytes of a text between quotes. -/
def quoteBytesBody : Bytes → List Char
  | [] => []
  | b :: rest =>
    match leading b rest with
    | some (c, k) => quoteChar c ++ quoteBytesBody (rest.drop k)
    | none => '\\' :: 'x' :: hex 2 b.toNat ++ quoteBytesBody rest
termination_by bs => bs.length
decreasing_by
  all_goals simp only [List.length_drop, List.length_cons]
  all_goals omega

/-- The quoted form of bytes. -/
def quoteBytes (bs : Bytes) : String := String.ofList ('"' :: quoteBytesBody bs ++ ['"'])

/-- A character that may start a name: a letter of the English alphabet, `_` or `$`. -/
def isNameStart (c : Char) : Bool :=
  ('a' ≤ c && c ≤ 'z') || ('A' ≤ c && c ≤ 'Z') || c == '_' || c == '$'

/-- A character that may follow in a name. -/
def isNamePart (c : Char) : Bool := isNameStart c || ('0' ≤ c && c ≤ '9')

/-- A non-empty name. -/
def isIdentifier (s : String) : Bool :=
  match s.toList with
  | [] => false
  | c :: cs => isNameStart c && cs.all isNamePart

/-- A key as it is written: names plainly, all other texts quoted. -/
def keyText (key : String) : String := if isIdentifier key then key else quote key

end Componentry.Text
