import Componentry.Digest.Block

/-!
# The SHA-1 digest
-/

namespace Componentry.Digest.Sha1

/-- The five words of the state. -/
structure State where
  a : UInt32
  b : UInt32
  c : UInt32
  d : UInt32
  e : UInt32

def initial : State := ⟨0x67452301, 0xEFCDAB89, 0x98BADCFE, 0x10325476, 0xC3D2E1F0⟩

/-- The words of a block followed by `n` more, each from four earlier ones; the newest first. -/
def schedule : Nat → List UInt32 → List UInt32
  | 0, ws => ws
  | n + 1, ws =>
    let w := ws.getD 2 0 ^^^ ws.getD 7 0 ^^^ ws.getD 13 0 ^^^ ws.getD 15 0
    schedule n (rotateLeft w 1 :: ws)

/-- The mixing function and the constant of a round. -/
def mix (round : Nat) (b c d : UInt32) : UInt32 × UInt32 :=
  if round < 20 then ((b &&& c) ||| ((~~~b) &&& d), 0x5A827999)
  else if round < 40 then (b ^^^ c ^^^ d, 0x6ED9EBA1)
  else if round < 60 then ((b &&& c) ||| (b &&& d) ||| (c &&& d), 0x8F1BBCDC)
  else (b ^^^ c ^^^ d, 0xCA62C1D6)

/-- The rounds from `round` on, one for each word. -/
def rounds : Nat → State → List UInt32 → State
  | _, s, [] => s
  | round, s, w :: ws =>
    let (f, k) := mix round s.b s.c s.d
    let a := rotateLeft s.a 5 + f + s.e + k + w
    rounds (round + 1) ⟨a, s.a, rotateLeft s.b 30, s.c, s.d⟩ ws

def compress (s : State) (block : List UInt32) : State :=
  let t := rounds 0 s (schedule 64 block.reverse).reverse
  ⟨s.a + t.a, s.b + t.b, s.c + t.c, s.d + t.d, s.e + t.e⟩

/-- The digest of a message: twenty bytes. -/
def digest (bs : Bytes) : Bytes :=
  let s := (blocks bs).foldl compress initial
  wordBytes [s.a, s.b, s.c, s.d, s.e]

end Componentry.Digest.Sha1
