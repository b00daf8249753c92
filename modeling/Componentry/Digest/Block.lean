import Componentry.Text.Quoted
import Componentry.Text.Utf8

/-!
# Messages in blocks

What the two digests share: a message is closed by a one bit, filled up with zero bits and ended by
its length in bits, so that it falls into blocks of sixteen words.
-/

namespace Componentry.Digest

/-- The last `width` bytes of a number, the highest first. -/
def bigEndian : Nat → Nat → Bytes
  | 0, _ => []
  | width + 1, n => bigEndian width (n / 256) ++ [UInt8.ofNat n]

/-- The number that bytes write, the highest first. -/
def ofBigEndian (bs : Bytes) : Nat := bs.foldl (fun n b => 256 * n + b.toNat) 0

/-- A message filled up to whole blocks of sixty-four bytes. -/
def padMessage (bs : Bytes) : Bytes :=
  let zeros := (119 - bs.length % 64) % 64
  bs ++ [0x80] ++ List.replicate zeros 0 ++ bigEndian 8 (8 * bs.length)

/-- Groups of `n` items; a rest that is too short is left out. -/
def groups {α : Type} (n : Nat) : Nat → List α → List (List α)
  | 0, _ => []
  | count + 1, xs => xs.take n :: groups n count (xs.drop n)

/-- The blocks of a message, each of sixteen words. -/
def blocks (bs : Bytes) : List (List UInt32) :=
  let padded := padMessage bs
  (groups 64 (padded.length / 64) padded).map fun block =>
    (groups 4 16 block).map fun word => UInt32.ofNat (ofBigEndian word)

/-- Turn a word to the left. -/
def rotateLeft (w : UInt32) (n : UInt32) : UInt32 := (w <<< n) ||| (w >>> (32 - n))

/-- Turn a word to the right. -/
def rotateRight (w : UInt32) (n : UInt32) : UInt32 := (w >>> n) ||| (w <<< (32 - n))

/-- The bytes of words, the highest first. -/
def wordBytes (ws : List UInt32) : Bytes := ws.flatMap fun w => bigEndian 4 w.toNat

/-- Bytes in hexadecimal digits. -/
def hexText (bs : Bytes) : String := String.ofList (bs.flatMap fun b => Text.hex 2 b.toNat)

def hexValue (c : Char) : Nat :=
  if '0' ≤ c && c ≤ '9' then c.toNat - 48
  else if 'a' ≤ c && c ≤ 'f' then c.toNat - 87
  else c.toNat - 55

/-- The bytes that hexadecimal digits write. -/
def ofHexDigits : List Char → Bytes
  | a :: b :: cs => UInt8.ofNat (16 * hexValue a + hexValue b) :: ofHexDigits cs
  | _ => []

/-- The bytes that a text writes in hexadecimal. -/
def ofHex (s : String) : Bytes := ofHexDigits s.toList

end Componentry.Digest
