import Componentry.Text.Utf8

/-!
# Checksums

The checksum of bytes is the remainder of a division of polynomials over two elements, bit by bit
from the lowest, with all bits turned over before and after.
-/

namespace Componentry.Gzip

/-- One step of the division: the lowest bit is divided off. -/
def checksumStep (r : UInt32) : UInt32 :=
  if r &&& 1 = 1 then (r >>> 1) ^^^ 0xEDB88320 else r >>> 1

/-- The remainder after eight more bits. -/
def checksumByte (r : UInt32) (b : UInt8) : UInt32 :=
  (List.range 8).foldl (fun r _ => checksumStep r) (r ^^^ b.toUInt32)

def checksum (bs : Bytes) : UInt32 := bs.foldl checksumByte 0xFFFFFFFF ^^^ 0xFFFFFFFF

/-- The last `width` bytes of a number, the lowest first. -/
def littleEndian : Nat → Nat → Bytes
  | 0, _ => []
  | width + 1, n => UInt8.ofNat n :: littleEndian width (n / 256)

/-- The number that bytes write, the lowest first. -/
def ofLittleEndian : Bytes → Nat
  | [] => 0
  | b :: bs => b.toNat + 256 * ofLittleEndian bs

end Componentry.Gzip
