import Componentry.Gzip.Checksum

/-!
# Compressed data

Compressed data is a sequence of blocks. A block holds bytes as they are, or symbols of two codes:
a symbol of the first is a byte, the end of the block or the length of a repetition, and a length is
followed by a symbol of the second that says how far back the repeated bytes stand. The codes of a
block are fixed or are given by the lengths of their code words in front of it.

Code words of one length are consecutive numbers, in the order of their symbols, and shorter words
come before longer ones; so the lengths determine the code.
-/

namespace Componentry.Gzip

/-- Why data cannot be expanded. -/
inductive InflateError where
  /-- The data ends too early. -/
  | truncated
  /-- The data is not well-formed; the number of bytes read until this is seen. -/
  | corrupt (offset : Nat)
  deriving DecidableEq, Repr

/-- The data that is left: the bits of a byte that is partly read, the bytes after it, and the
number of bytes read so far. -/
structure BitSource where
  bits : List Bool
  bytes : Bytes
  offset : Nat

/-- Reading from compressed data. -/
abbrev BitReader := StateT BitSource (Except InflateError)

namespace BitReader

/-- The data is not well-formed. -/
def corrupt {α : Type} : BitReader α := do throw (.corrupt (← get).offset)

/-- The next byte; bits left of an earlier one are skipped. -/
def byte : BitReader UInt8 := do
  let s ← get
  match s.bytes with
  | [] => throw .truncated
  | b :: bs =>
    set ({ bits := [], bytes := bs, offset := s.offset + 1 } : BitSource)
    return b

/-- The bits of a byte, the lowest first. -/
def bitsOf (b : UInt8) : List Bool := (List.range 8).map fun i => b.toNat.testBit i

def bit : BitReader Bool := do
  match (← get).bits with
  | b :: bs =>
    modify fun s => { s with bits := bs }
    return b
  | [] =>
    let bits := bitsOf (← byte)
    modify fun s => { s with bits := bits.drop 1 }
    return bits.headD false

/-- A number of `width` bits, the lowest first. -/
def number : Nat → BitReader Nat
  | 0 => return 0
  | width + 1 => do
    let low ← bit
    return low.toNat + 2 * (← number width)

end BitReader

/-! ## Codes -/

/-- A code: the length and the number of the word of each symbol that has one. -/
structure Code where
  words : List (Nat × Nat × Nat)

namespace Code

/-- The longest code word. -/
def maxLength : Nat := 15

/-- The symbols of one length with consecutive words, and the first word of the next length. -/
def assign (length first : Nat) (symbols : List Nat) : List (Nat × Nat × Nat) × Nat :=
  (symbols.zipIdx.map fun (s, i) => (length, first + i, s), 2 * (first + symbols.length))

/-- The words of all lengths from `length` on. -/
def assignFrom (lengths : List Nat) : Nat → Nat → Nat → List (Nat × Nat × Nat)
  | 0, _, _ => []
  | count + 1, length, first =>
    let symbols := (lengths.zipIdx.filter (·.1 == length)).map (·.2)
    let (words, next) := assign length first symbols
    words ++ assignFrom lengths count (length + 1) next

/-- The share of all words of the longest length that begin with a code word. -/
def filled (lengths : List Nat) : Nat :=
  lengths.foldl (fun n l => if l = 0 then n else n + Nat.pow 2 (maxLength - l)) 0

/-- The code with these lengths of its words, by symbol; zero is the length of a symbol without a
word. Every sequence of bits must begin with a word, unless there is no word or just one of a
single bit. -/
def ofLengths? (lengths : List Nat) : Option Code :=
  let used := lengths.filter (· ≠ 0)
  if used = [] || used = [1] || filled lengths = Nat.pow 2 maxLength then
    some ⟨assignFrom lengths maxLength 1 0⟩
  else none

/-- The symbol of the next code word, of which `length` bits are read and make `word`. -/
def symbolFrom (c : Code) : Nat → Nat → Nat → BitReader Nat
  | 0, _, _ => BitReader.corrupt
  | count + 1, length, word =>
    match c.words.find? fun w => w.1 == length && w.2.1 == word with
    | some (_, _, symbol) => return symbol
    | none => do
      if c.words.any fun w => w.1 > length && w.2.1 / Nat.pow 2 (w.1 - length) == word then
        let next ← BitReader.bit
        symbolFrom c count (length + 1) (2 * word + next.toNat)
      else BitReader.corrupt

/-- The symbol of the next code word. -/
def symbol (c : Code) : BitReader Nat := symbolFrom c (maxLength + 1) 0 0

end Code

/-! ## Blocks -/

/-- The last symbol of a block. -/
def endOfBlock : Nat := 256

/-- The fixed code of bytes and lengths. -/
def fixedLengths : List Nat :=
  List.replicate 144 8 ++ List.replicate 112 9 ++ List.replicate 24 7 ++ List.replicate 8 8

structure BlockCodes where
  main : Code
  distance : Code

/-- The codes that need not be given. -/
def fixedCodes : BlockCodes :=
  ⟨(Code.ofLengths? fixedLengths).getD ⟨[]⟩,
    (Code.ofLengths? (List.replicate 32 5)).getD ⟨[]⟩⟩

/-- The order in which the lengths of the code of lengths are given. -/
def lengthOrder : List Nat :=
  [16, 17, 18, 0, 8, 7, 9, 6, 10, 5, 11, 4, 12, 3, 13, 2, 14, 1, 15]

/-- Code lengths, until there are `total`; repetitions are abbreviated. -/
def readLengths (c : Code) (total : Nat) : Nat → List Nat → BitReader (List Nat)
  | 0, sofar => return sofar
  | fuel + 1, sofar => do
    if sofar.length ≥ total then return sofar
    let s ← c.symbol
    if s < 16 then readLengths c total fuel (sofar ++ [s])
    else
      let value ←
        if s = 16 then
          match sofar.getLast? with
          | some l => pure l
          | none => BitReader.corrupt
        else pure 0
      let count ←
        if s = 16 then (· + 3) <$> BitReader.number 2
        else if s = 17 then (· + 3) <$> BitReader.number 3
        else (· + 11) <$> BitReader.number 7
      if sofar.length + count > total then BitReader.corrupt
      readLengths c total fuel (sofar ++ List.replicate count value)

/-- The codes in front of a block. -/
def readCodes : BitReader BlockCodes := do
  let mainCount := 257 + (← BitReader.number 5)
  let distanceCount := 1 + (← BitReader.number 5)
  let givenCount := 4 + (← BitReader.number 4)
  if mainCount > 286 || distanceCount > 30 then BitReader.corrupt
  let given ← (lengthOrder.take givenCount).mapM fun s => return (s, ← BitReader.number 3)
  let lengths := (List.range 19).map fun s => (given.lookup s).getD 0
  let some code := Code.ofLengths? lengths | BitReader.corrupt
  let all ← readLengths code (mainCount + distanceCount) (mainCount + distanceCount) []
  let some main := Code.ofLengths? (all.take mainCount) | BitReader.corrupt
  let some distance := Code.ofLengths? (all.drop mainCount) | BitReader.corrupt
  return ⟨main, distance⟩

/-- The length of a repetition: the symbols from 257 on stand for lengths from 3 on, and more and
more lengths share a symbol. -/
def readLength (symbol : Nat) : BitReader Nat := do
  if symbol < 265 then return symbol - 254
  else if symbol < 285 then
    let width := (symbol - 261) / 4
    return (4 + (symbol - 265) % 4) * Nat.pow 2 width + 3 + (← BitReader.number width)
  else if symbol = 285 then return 258
  else BitReader.corrupt

/-- How far back the repeated bytes stand. -/
def readDistance (c : Code) : BitReader Nat := do
  let symbol ← c.symbol
  if symbol < 4 then return symbol + 1
  else if symbol < 30 then
    let width := symbol / 2 - 1
    return (2 + symbol % 2) * Nat.pow 2 width + 1 + (← BitReader.number width)
  else BitReader.corrupt

/-- Data with `length` of its bytes repeated, each from `distance` before the end. -/
def repeatBytes (distance : Nat) : Nat → Array UInt8 → Array UInt8
  | 0, out => out
  | length + 1, out => repeatBytes distance length (out.push (out.getD (out.size - distance) 0))

/-- The symbols of a block. -/
def readSymbols (c : BlockCodes) : Nat → Array UInt8 → BitReader (Array UInt8)
  | 0, _ => throw .truncated
  | fuel + 1, out => do
    let symbol ← c.main.symbol
    if symbol < endOfBlock then readSymbols c fuel (out.push (UInt8.ofNat symbol))
    else if symbol = endOfBlock then return out
    else
      let length ← readLength symbol
      let distance ← readDistance c.distance
      if distance > out.size then BitReader.corrupt
      readSymbols c fuel (repeatBytes distance length out)

/-- Bytes that are stored as they are. -/
def readStored : Nat → Array UInt8 → BitReader (Array UInt8)
  | 0, out => return out
  | count + 1, out => do readStored count (out.push (← BitReader.byte))

/-- The number of bits that are left. -/
def BitSource.size (s : BitSource) : Nat := s.bits.length + 8 * s.bytes.length

/-- One block; whether it is the last. -/
def readBlock (out : Array UInt8) : BitReader (Bool × Array UInt8) := do
  let last ← BitReader.bit
  let out ← match ← BitReader.number 2 with
    | 0 => do
      let size := (← BitReader.byte).toNat + 256 * (← BitReader.byte).toNat
      let check := (← BitReader.byte).toNat + 256 * (← BitReader.byte).toNat
      if size + check ≠ 65535 then BitReader.corrupt
      readStored size out
    | 1 => do readSymbols fixedCodes ((← get).size + 1) out
    | 2 => do
      let codes ← readCodes
      readSymbols codes ((← get).size + 1) out
    | _ => BitReader.corrupt
  return (last, out)

/-- All blocks up to the last. -/
def readBlocks : Nat → Array UInt8 → BitReader (Array UInt8)
  | 0, _ => throw .truncated
  | fuel + 1, out => do
    let (last, out) ← readBlock out
    if last then return out else readBlocks fuel out

/-- The data that compressed bytes stand for, and the bytes after them. -/
def inflate (bs : Bytes) : Except InflateError (Bytes × Bytes) := do
  let (out, rest) ← (readBlocks (8 * bs.length + 1) #[]).run ⟨[], bs, 0⟩
  return (out.toList, rest.bytes)

/-! ## Storing -/

/-- The most bytes that one block can store. -/
def maxStored : Nat := 65535

/-- A block that stores bytes as they are. -/
def storedBlock (last : Bool) (bs : Bytes) : Bytes :=
  (if last then 1 else 0) :: littleEndian 2 bs.length ++ littleEndian 2 (maxStored - bs.length) ++
    bs

/-- Bytes in blocks that store them; `count` is more than enough. -/
def storeWithin : Nat → Bytes → Bytes
  | 0, _ => []
  | count + 1, bs =>
    if bs.length ≤ maxStored then storedBlock true bs
    else storedBlock false (bs.take maxStored) ++ storeWithin count (bs.drop maxStored)

/-- Bytes in blocks that store them. -/
def store (bs : Bytes) : Bytes := storeWithin (bs.length + 1) bs

end Componentry.Gzip
