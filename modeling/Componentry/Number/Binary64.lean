/-!
# Binary floating-point numbers

Numbers in snippets and in checked values are binary64 numbers. They are never computed with: a
number is read from its decimal text, compared, negated and written back. So a number is kept as
what it is, a sign, a whole mantissa and a power of two, and every operation is exact arithmetic on
whole numbers.

`Format.round` is the one rounding: the nearest number of a format, a tie going to the even
mantissa.
-/

namespace Componentry

/-- A binary64 number. `finite negative m q` is `± m · 2 ^ q`. -/
inductive Binary64 where
  | nan
  | infinite (negative : Bool)
  | finite (negative : Bool) (mantissa : Nat) (exponent : Int)
  deriving DecidableEq, Repr, Inhabited

namespace Number

/-- A binary format: mantissas below `2 ^ precision`, exponents in
`minExponent … maxExponent`. -/
structure Format where
  precision : Nat
  minExponent : Int
  maxExponent : Int

def binary64 : Format := ⟨53, -1074, 971⟩

def binary32 : Format := ⟨24, -149, 104⟩

/-- `num / den`, rounded to the nearest whole number, a tie to the even one. -/
def roundDiv (num den : Nat) : Nat :=
  let quotient := num / den
  let remainder := num % den
  if 2 * remainder < den then quotient
  else if 2 * remainder > den then quotient + 1
  else if quotient % 2 = 0 then quotient else quotient + 1

/-- The fraction `num · base ^ e / den` as a numerator and a denominator. -/
def scale (base num den : Nat) (e : Int) : Nat × Nat :=
  match e with
  | .ofNat k => (num * Nat.pow base k, den)
  | .negSucc k => (num, den * Nat.pow base (k + 1))

/-- The fraction `num · 2 ^ e / den`. -/
def scaleTwo : Nat → Nat → Int → Nat × Nat := scale 2

/-- The exponent `e` with `2 ^ e ≤ num / den < 2 ^ (e + 1)`, for a positive fraction. -/
def floorLogTwo (num den : Nat) : Int :=
  let guess : Int := (num.log2 : Int) - (den.log2 : Int)
  let (n, d) := scaleTwo num den (-guess)
  if n < d then guess - 1 else guess

/-- The nearest mantissa and exponent of a format for the fraction `num / den`; `none` when the
fraction lies beyond the format's largest number. -/
def Format.round (f : Format) (num den : Nat) : Option (Nat × Int) :=
  if num = 0 then some (0, f.minExponent)
  else
    let q := max (floorLogTwo num den - (f.precision - 1 : Nat)) f.minExponent
    let (n, d) := scaleTwo num den (-q)
    let m := roundDiv n d
    let (m, q) :=
      if m = Nat.pow 2 f.precision then (Nat.pow 2 (f.precision - 1), q + 1) else (m, q)
    if q > f.maxExponent then none else some (m, q)

end Number

namespace Binary64

open Number

/-- The magnitude of a finite number as a fraction. -/
def fraction (mantissa : Nat) (exponent : Int) : Nat × Nat := scaleTwo mantissa 1 exponent

/-- The nearest binary64 number to `± num / den`, if there is one in range. -/
def ofFraction? (negative : Bool) (num den : Nat) : Option Binary64 :=
  (binary64.round num den).map fun (m, q) => .finite negative m q

/-- A whole number that binary64 can hold exactly is itself; any other is rounded. -/
def ofNat (n : Nat) : Binary64 := (ofFraction? false n 1).getD (.infinite false)

/-- The number with the other sign. -/
def neg : Binary64 → Binary64
  | .nan => .nan
  | .infinite s => .infinite (!s)
  | .finite s m q => .finite (!s) m q

/-- The nearest number to a whole number. -/
def ofInt : Int → Binary64
  | .ofNat n => ofNat n
  | .negSucc n => (ofNat (n + 1)).neg

/-- Equality of values: the two zeros are equal, and `nan` equals nothing. -/
def same : Binary64 → Binary64 → Bool
  | .infinite s, .infinite t => s == t
  | .finite s m q, .finite t n r =>
    if m = 0 || n = 0 then m == n
    else s == t && m * Nat.pow 2 (q - min q r).toNat == n * Nat.pow 2 (r - min q r).toNat
  | _, _ => false

/-- The number rounded to single precision; beyond its range lie the infinities. -/
def toSingle : Binary64 → Binary64
  | .finite s m q =>
    let (num, den) := fraction m q
    match binary32.round num den with
    | some (n, r) =>
      let (num, den) := fraction n r
      (ofFraction? s num den).getD (.infinite s)
    | none => .infinite s
  | x => x

end Binary64

end Componentry
