import Componentry.Number.Binary64

/-!
# Decimal notation of numbers

A `Decimal` is `digits · 10 ^ exponent`. `Decimal.toBinary64?` reads it as the nearest binary64
number. `shortest` goes back: it finds the fewest digits that read back as the same number, and of
those the nearest to it, a tie going to the even digit.

How a decimal is laid out is a `Layout`: which exponents take scientific form and how wide the
exponent is written. Two layouts are used, `Layout.source` for programs and messages and
`Layout.document` for JSON documents.
-/

namespace Componentry.Number

/-- The number `digits · 10 ^ exponent`. -/
structure Decimal where
  digits : Nat
  exponent : Int
  deriving DecidableEq, Repr

/-- The number of decimal digits of a number; zero has one. -/
def digitCount (n : Nat) : Nat := (Nat.toDigits 10 n).length

/-- Decimal exponents outside `± exponentLimit` leave binary64 whatever the digits are, as long as
there are at most `exponentLimit` of them more or less. -/
def exponentLimit : Int := 400

/-- The fraction `num · 10 ^ e / den`. -/
def scaleTen : Nat → Nat → Int → Nat × Nat := scale 10

/-- The nearest binary64 number; `none` when the decimal is too large. A decimal whose leading
digit stands far outside the range is not expanded. -/
def Decimal.toBinary64? (negative : Bool) (d : Decimal) : Option Binary64 :=
  if d.digits = 0 then Binary64.ofFraction? negative 0 1
  else
    let leading := d.exponent + (digitCount d.digits : Int)
    if leading > exponentLimit then none
    else if leading < -exponentLimit then Binary64.ofFraction? negative 0 1
    else
      let (num, den) := scaleTen d.digits 1 d.exponent
      Binary64.ofFraction? negative num den

/-- `a · 10 ^ s ≤ b · 2 ^ t`, in whole numbers. -/
def decimalLe (a : Nat) (s : Int) (b : Nat) (t : Int) : Bool :=
  a * Nat.pow 10 s.toNat * Nat.pow 2 (-t).toNat ≤ b * Nat.pow 2 t.toNat * Nat.pow 10 (-s).toNat

/-- `b · 2 ^ t ≤ a · 10 ^ s`, in whole numbers. -/
def binaryLe (b : Nat) (t : Int) (a : Nat) (s : Int) : Bool :=
  b * Nat.pow 2 t.toNat * Nat.pow 10 (-s).toNat ≤ a * Nat.pow 10 s.toNat * Nat.pow 2 (-t).toNat

/-- The reals that round to a number: between `low · 2 ^ scale` and `high · 2 ^ scale`, the ends
included exactly if `closed`. -/
structure Interval where
  low : Nat
  high : Nat
  scale : Int
  closed : Bool

/-- The interval of the binary64 number `m · 2 ^ q`. Below a power of two the neighbours lie twice
as close. -/
def Interval.of (m : Nat) (q : Int) : Interval :=
  let below :=
    if m = Nat.pow 2 (binary64.precision - 1) && q > binary64.minExponent then 1 else 2
  ⟨4 * m - below, 4 * m + 2, q - 2, m % 2 == 0⟩

/-- `a · 10 ^ s` lies in the interval. -/
def Interval.has (i : Interval) (a : Nat) (s : Int) : Bool :=
  if i.closed then binaryLe i.low i.scale a s && decimalLe a s i.high i.scale
  else !decimalLe a s i.low i.scale && !binaryLe i.high i.scale a s

/-- The exponent of the leading decimal digit of the positive fraction `num / den`, searched
downwards from `start` for at most `fuel` steps. -/
def leadingExponent (num den : Nat) : Nat → Int → Int
  | 0, x => x
  | fuel + 1, x =>
    let (n, d) := scaleTen num den (-x)
    if d ≤ n then x else leadingExponent num den fuel (x - 1)

/-- The candidates of one grid: `num / den` lies between `a` and `a + 1` units. The one inside the
interval is taken; of two, the nearer, and at equal distance the even one. -/
def pick (i : Interval) (unit : Int) (num den : Nat) : Option Nat :=
  let (n, d) := scaleTen num den (-unit)
  let a := n / d
  let r := n % d
  match i.has a unit, i.has (a + 1) unit with
  | true, true =>
    if 2 * r < d then some a
    else if 2 * r > d then some (a + 1)
    else if a % 2 = 0 then some a else some (a + 1)
  | true, false => some a
  | false, true => some (a + 1)
  | false, false => none

/-- The first grid with a candidate, from the one whose unit is the leading digit on. -/
def search (i : Interval) (num den : Nat) : Nat → Int → Decimal
  | 0, unit =>
    let (n, d) := scaleTen num den (-unit)
    ⟨roundDiv n d, unit⟩
  | fuel + 1, unit =>
    match pick i unit num den with
    | some a => ⟨a, unit⟩
    | none => search i num den fuel (unit - 1)

/-- The decimal without trailing zeros. -/
def Decimal.trim (d : Decimal) : Decimal :=
  if d.digits ≠ 0 ∧ d.digits % 10 = 0 then
    Decimal.trim ⟨d.digits / 10, d.exponent + 1⟩
  else d
termination_by d.digits
decreasing_by all_goals omega

/-- The fewest digits that read back as `m · 2 ^ q`. Seventeen digits always do. -/
def shortest (m : Nat) (q : Int) : Decimal :=
  if m = 0 then ⟨0, 0⟩
  else
    let (num, den) := Binary64.fraction m q
    let start : Int := ((floorLogTwo num den) * 30103).fdiv 100000 + 2
    let x := leadingExponent num den 4 start
    (search (Interval.of m q) num den 17 x).trim

/-! ## Layouts -/

/-- How a decimal is written: which exponents of the leading digit take scientific form, and the
least number of digits of a negative and of a positive written exponent. -/
structure Layout where
  scientific : Int → Bool
  negativeWidth : Nat
  positiveWidth : Nat

/-- Programs and messages: scientific below `10 ^ -4` and from `10 ^ 6` on, the exponent with a
sign and two digits. -/
def Layout.source : Layout := ⟨fun x => x < -4 || x ≥ 6, 2, 2⟩

/-- JSON documents: scientific below `10 ^ -6` and from `10 ^ 21` on. -/
def Layout.document : Layout := ⟨fun x => x < -6 || x ≥ 21, 1, 2⟩

/-- Digits only, whatever the exponent is. -/
def Layout.positional : Layout := ⟨fun _ => false, 1, 1⟩

/-- A number in decimal digits, padded with zeros in front. -/
def padded (width n : Nat) : List Char :=
  let ds := Nat.toDigits 10 n
  List.replicate (width - ds.length) '0' ++ ds

/-- The text of a decimal whose leading digit has the exponent `x` and whose digits are `ds`. -/
def Layout.write (l : Layout) (ds : List Char) (x : Int) : List Char :=
  if l.scientific x then
    let mantissa := match ds with
      | [] => []
      | [d] => [d]
      | d :: more => d :: '.' :: more
    match x with
    | .ofNat k => mantissa ++ 'e' :: '+' :: padded l.positiveWidth k
    | .negSucc k => mantissa ++ 'e' :: '-' :: padded l.negativeWidth (k + 1)
  else
    match x with
    | .ofNat k =>
      let whole := ds.take (k + 1) ++ List.replicate (k + 1 - ds.length) '0'
      let places := ds.drop (k + 1)
      if places.isEmpty then whole else whole ++ '.' :: places
    | .negSucc k => '0' :: '.' :: List.replicate k '0' ++ ds

/-- The text of a number in a layout. -/
def Layout.text (l : Layout) : Binary64 → String
  | .nan => "NaN"
  | .infinite false => "+Inf"
  | .infinite true => "-Inf"
  | .finite s m q =>
    let d := shortest m q
    let ds := Nat.toDigits 10 d.digits
    let x := d.exponent + (ds.length : Int) - 1
    let sign := if s then ['-'] else []
    String.ofList (sign ++ l.write ds x)

end Componentry.Number
