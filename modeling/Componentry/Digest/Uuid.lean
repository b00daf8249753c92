import Componentry.Digest.Sha1

/-!
# Name-based identifiers

A universally unique identifier of version five is made from the SHA-1 digest of a namespace and a
name. The namespace used here is that of object identifiers.
-/

namespace Componentry.Digest.Uuid

/-- The namespace of object identifiers. -/
def objectNamespace : Bytes :=
  [0x6b, 0xa7, 0xb8, 0x12, 0x9d, 0xad, 0x11, 0xd1, 0x80, 0xb4, 0x00, 0xc0, 0x4f, 0xd4, 0x30, 0xc8]

/-- Sixteen bytes with the version and the variant in their places. -/
def mark (bs : Bytes) : Bytes :=
  let bs := bs.take 16
  let version := (bs.getD 6 0 &&& 0x0f) ||| 0x50
  let variant := (bs.getD 8 0 &&& 0x3f) ||| 0x80
  (bs.set 6 version).set 8 variant

/-- The text of an identifier: five groups of hexadecimal digits. -/
def text (bs : Bytes) : String :=
  let part (start length : Nat) := hexText ((bs.drop start).take length)
  String.intercalate "-" [part 0 4, part 4 2, part 6 2, part 8 2, part 10 6]

def ofName (name : String) : String :=
  text (mark (Sha1.digest (objectNamespace ++ Text.utf8 name)))

end Componentry.Digest.Uuid
