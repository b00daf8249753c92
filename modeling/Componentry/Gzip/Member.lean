import Componentry.Gzip.Inflate

/-!
# Compressed files

A compressed file is a sequence of members, each with a header, compressed data, and the checksum
and the size of the data. The data of the file is that of its members one after another. Nothing is
written for no data, and no bytes stand for no data.
-/

namespace Componentry.Gzip

inductive MemberError where
  | truncated
  | header
  | checksum
  | corrupt (offset : Nat)
  deriving DecidableEq, Repr

def MemberError.message : MemberError → String
  | .truncated => "unexpected EOF"
  | .header => "gzip: invalid header"
  | .checksum => "gzip: invalid checksum"
  | .corrupt offset => "flate: corrupt input before offset " ++ toString offset

/-- Why a file cannot be expanded: it has no beginning, or something after it is wrong. -/
inductive ExpandError where
  | start (e : MemberError)
  | body (e : MemberError)
  deriving DecidableEq, Repr

def ExpandError.message : ExpandError → String
  | .start e => "failed to create gzip reader: " ++ e.message
  | .body e => "failed to decompress data: " ++ e.message

/-! ## Headers -/

/-- A number of bytes from the front. -/
def takeBytes (n : Nat) (bs : Bytes) : Except MemberError (Bytes × Bytes) :=
  if bs.length < n then .error .truncated else .ok (bs.take n, bs.drop n)

/-- The longest text in a header, with the zero that ends it. -/
def maxHeaderText : Nat := 512

/-- The bytes after a text that a zero ends; `room` more bytes may be read. -/
def skipText : Nat → Bytes → Except MemberError Bytes
  | 0, _ => .error .header
  | _ + 1, [] => .error .truncated
  | room + 1, b :: bs => if b = 0 then .ok bs else skipText room bs

/-- What a header has beside its first ten bytes. -/
structure HeaderParts where
  extra : Bool
  name : Bool
  comment : Bool
  check : Bool

/-- The parts that the flags of a header announce. -/
def HeaderParts.ofFlags (flags : UInt8) : HeaderParts :=
  { extra := flags.toNat.testBit 2, name := flags.toNat.testBit 3
    comment := flags.toNat.testBit 4, check := flags.toNat.testBit 1 }

/-- The bytes after the extra bytes of a header. -/
def skipExtra (bs : Bytes) : Except MemberError Bytes := do
  let (size, bs) ← takeBytes 2 bs
  let (_, bs) ← takeBytes (ofLittleEndian size) bs
  return bs

/-- The bytes after the header of a member. -/
def afterHeader (bs : Bytes) : Except MemberError Bytes := do
  let (fixed, rest) ← takeBytes 10 bs
  if fixed.take 3 ≠ [0x1F, 0x8B, 8] then throw .header
  let parts := HeaderParts.ofFlags (fixed.getD 3 0)
  let rest ← if parts.extra then skipExtra rest else pure rest
  let rest ← if parts.name then skipText maxHeaderText rest else pure rest
  let rest ← if parts.comment then skipText maxHeaderText rest else pure rest
  if parts.check then
    let (sum, after) ← takeBytes 2 rest
    let header := bs.take (bs.length - rest.length)
    if ofLittleEndian sum ≠ (checksum header).toNat % 65536 then throw .header
    return after
  else return rest

/-! ## Members -/

/-- The data after a header, checked, and the bytes after the member. -/
def readBody (bs : Bytes) : Except MemberError (Bytes × Bytes) := do
  let (data, rest) ← match inflate bs with
    | .ok r => pure r
    | .error .truncated => throw .truncated
    | .error (.corrupt offset) => throw (.corrupt offset)
  let (trailer, rest) ← takeBytes 8 rest
  if ofLittleEndian (trailer.take 4) ≠ (checksum data).toNat ||
      ofLittleEndian (trailer.drop 4) ≠ data.length % Nat.pow 2 32 then
    throw .checksum
  return (data, rest)

/-- The data of a member after its header and of all later members. -/
def readBodies : Nat → Bytes → Except MemberError Bytes
  | 0, _ => .error .truncated
  | fuel + 1, bs => do
    let (data, rest) ← readBody bs
    if rest.isEmpty then return data
    return data ++ (← readBodies fuel (← afterHeader rest))

/-- The data of a compressed file. -/
def expand (bs : Bytes) : Except ExpandError Bytes :=
  if bs.isEmpty then .ok []
  else match afterHeader bs with
    | .error e => .error (.start e)
    | .ok rest => (readBodies (rest.length + 1) rest).mapError .body

/-- The header of the members that are written: no time, no parts, an unknown system. -/
def plainHeader : Bytes := [0x1F, 0x8B, 8, 0, 0, 0, 0, 0, 0, 0xFF]

/-- A compressed file of data. -/
def pack (bs : Bytes) : Bytes :=
  if bs.isEmpty then []
  else plainHeader ++ store bs ++ littleEndian 4 (checksum bs).toNat ++ littleEndian 4 bs.length

end Componentry.Gzip
