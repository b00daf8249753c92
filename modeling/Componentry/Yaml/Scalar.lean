import Componentry.Number.Decimal
import Componentry.Yaml.Node

/-!
# What a scalar stands for

A plain scalar stands for nothing, a truth value, a number, a point in time or a text, depending on
how it is written. Scalars in any other style are texts.
-/

namespace Componentry.Yaml

/-- What a scalar stands for. -/
inductive Tag where
  | null | bool | int | float | timestamp | merge | str
  deriving DecidableEq, Repr, Inhabited

def Tag.name : Tag → String
  | .null => "!!null"
  | .bool => "!!bool"
  | .int => "!!int"
  | .float => "!!float"
  | .timestamp => "!!timestamp"
  | .merge => "!!merge"
  | .str => "!!str"

def isDigit (c : Char) : Bool := '0' ≤ c && c ≤ '9'

/-- The texts that stand for nothing. -/
def isNullText (s : String) : Bool := ["", "~", "null", "Null", "NULL"].contains s

/-- The truth value that a text stands for. -/
def boolOf? (s : String) : Option Bool :=
  if ["true", "True", "TRUE"].contains s then some true
  else if ["false", "False", "FALSE"].contains s then some false
  else none

/-- The value of a digit in a base up to sixteen. -/
def digitOf? (base : Nat) (c : Char) : Option Nat :=
  let v :=
    if isDigit c then c.toNat - 48
    else if 'a' ≤ c && c ≤ 'f' then c.toNat - 87
    else if 'A' ≤ c && c ≤ 'F' then c.toNat - 55
    else 16
  if v < base then some v else none

/-- The whole number that digits of a base write. -/
def digitsOf? (base : Nat) (cs : List Char) : Option Nat :=
  if cs.isEmpty then none
  else cs.foldl (fun n? c => do return base * (← n?) + (← digitOf? base c)) (some 0)

/-- The whole number without a sign: hexadecimal after `0x`, octal after `0o` or a zero, binary
after `0b`, else decimal. -/
def magnitude? : List Char → Option Nat
  | '0' :: x :: ds =>
    if x = 'x' || x = 'X' then digitsOf? 16 ds
    else if x = 'o' || x = 'O' then digitsOf? 8 ds
    else if x = 'b' || x = 'B' then digitsOf? 2 ds
    else digitsOf? 8 (x :: ds)
  | ds => digitsOf? 10 ds

/-- The whole number that a text writes, if it fits in sixty-four bits. What follows the sign is
read by `size?`. -/
def signedOf? (size? : List Char → Option Nat) (cs : List Char) : Option Int :=
  match cs with
  | '-' :: ds => (size? ds).bind fun n => if n ≤ Nat.pow 2 63 then some (-(n : Int)) else none
  | '+' :: ds => (size? ds).bind fun n => if n < Nat.pow 2 63 then some (n : Int) else none
  | ds => (size? ds).bind fun n => if n < Nat.pow 2 64 then some (n : Int) else none

/-- The whole number that a text writes, if it fits in sixty-four bits. The sign stands in front, or
after the mark of a binary or an octal number. -/
def intOf? (cs : List Char) : Option Int :=
  signedOf? magnitude? cs <|>
    match cs with
    | '0' :: 'b' :: ds => signedOf? (digitsOf? 2) ds
    | '0' :: 'o' :: ds => signedOf? (digitsOf? 8) ds
    | _ => none

/-- The exponent of a decimal number and what is left after it. -/
def exponentPart : List Char → Option Int
  | [] => some 0
  | e :: rest =>
    if e = 'e' || e = 'E' then
      match rest with
      | '-' :: ds => (digitsOf? 10 ds).map fun n => -(n : Int)
      | '+' :: ds => (digitsOf? 10 ds).map fun n => (n : Int)
      | ds => (digitsOf? 10 ds).map fun n => (n : Int)
    else none

/-- The decimal number that a text without a sign writes. -/
def decimalOf? (cs : List Char) : Option Number.Decimal :=
  let whole := cs.takeWhile isDigit
  let rest := cs.dropWhile isDigit
  let (pointed, places, rest) := match rest with
    | '.' :: more => (true, more.takeWhile isDigit, more.dropWhile isDigit)
    | _ => (false, [], rest)
  if whole.isEmpty && (!pointed || places.isEmpty) then none
  else do
    let power ← exponentPart rest
    let digits := (digitsOf? 10 (whole ++ places)).getD 0
    return ⟨digits, power - places.length⟩

/-- The number that a text writes. -/
def floatOf? (cs : List Char) : Option Binary64 :=
  match cs with
  | '-' :: ds => (decimalOf? ds).bind (·.toBinary64? true)
  | '+' :: ds => (decimalOf? ds).bind (·.toBinary64? false)
  | ds => (decimalOf? ds).bind (·.toBinary64? false)

/-- Every low line stands between two digits. -/
def lowLinesFit (afterDigit : Bool) : List Char → Bool
  | [] => true
  | c :: rest =>
    if c = '_' then afterDigit && rest.head?.any isDigit && lowLinesFit false rest
    else lowLinesFit (isDigit c) rest

/-- Names of numbers that no digits write. -/
def specialFloatOf? (s : String) : Option Binary64 :=
  if [".nan", ".NaN", ".NAN"].contains s then some .nan
  else if [".inf", ".Inf", ".INF", "+.inf", "+.Inf", "+.INF"].contains s then
    some (.infinite false)
  else if ["-.inf", "-.Inf", "-.INF"].contains s then some (.infinite true)
  else none

/-! ## Points in time -/

/-- One or two digits at the front of a text. -/
def shortNumber : List Char → Option (Nat × List Char)
  | c :: d :: rest =>
    if isDigit c && isDigit d then some ((c.toNat - 48) * 10 + (d.toNat - 48), rest)
    else if isDigit c then some (c.toNat - 48, d :: rest)
    else none
  | [c] => if isDigit c then some (c.toNat - 48, []) else none
  | [] => none

/-- A mark at the front of a text. -/
def mark (c : Char) : List Char → Option (List Char)
  | x :: rest => if x = c then some rest else none
  | [] => none

/-- The number of days of a month. -/
def daysIn (year month : Nat) : Nat :=
  if month = 2 then
    if year % 4 = 0 && (year % 100 ≠ 0 || year % 400 = 0) then 29 else 28
  else if [4, 6, 9, 11].contains month then 30
  else 31

/-- The text after a date. -/
def afterDate (cs : List Char) : Option (List Char) := do
  let year ← digitsOf? 10 (cs.take 4)
  let rest ← mark '-' (cs.drop 4)
  let (month, rest) ← shortNumber rest
  let rest ← mark '-' rest
  let (day, rest) ← shortNumber rest
  if 1 ≤ month && month ≤ 12 && 1 ≤ day && day ≤ daysIn year month then some rest else none

/-- The text after a time of day. -/
def afterTime (cs : List Char) : Option (List Char) := do
  let (hour, rest) ← shortNumber cs
  let rest ← mark ':' rest
  let (minute, rest) ← shortNumber rest
  let rest ← mark ':' rest
  let (second, rest) ← shortNumber rest
  if hour < 24 && minute < 60 && second < 60 then
    match rest with
    | point :: d :: more =>
      if (point = '.' || point = ',') && isDigit d then some (more.dropWhile isDigit) else some rest
    | _ => some rest
  else none

/-- A time zone: `Z`, or hours and minutes with a sign, up to a whole day and a whole hour. -/
def isZone : List Char → Bool
  | ['Z'] => true
  | [s, a, b, ':', c, d] =>
    (s = '+' || s = '-') && (digitsOf? 10 [a, b]).any (· ≤ 24) && (digitsOf? 10 [c, d]).any (· ≤ 60)
  | _ => false

/-- The text writes a point in time: a date, and perhaps a time of day. After blanks the time of day
has no zone, after a letter it has one. -/
def isTimestamp (cs : List Char) : Bool :=
  (cs.takeWhile isDigit).length = 4 &&
    match afterDate cs with
    | none => false
    | some [] => true
    | some (sep :: rest) =>
      match afterTime (if sep = ' ' then rest.dropWhile (· = ' ') else rest) with
      | none => false
      | some zone =>
        if sep = ' ' then zone.isEmpty
        else (sep = 'T' || sep = 't') && isZone zone

/-! ## Tags -/

/-- What a plain scalar stands for. -/
def plainTag (s : String) : Tag :=
  if isNullText s then .null
  else if (boolOf? s).isSome then .bool
  else if s = "<<" then .merge
  else if (specialFloatOf? s).isSome then .float
  else
    let cs := s.toList
    match cs with
    | [] => .null
    | c :: _ =>
      let digits := cs.filter (· ≠ '_')
      if isDigit c || c = '+' || c = '-' then
        if isTimestamp cs then .timestamp
        else if (intOf? digits).isSome then .int
        else if (floatOf? digits).isSome then .float
        else .str
      else if c = '.' && lowLinesFit false cs && (floatOf? digits).isSome then .float
      else .str

/-- What a scalar stands for. -/
def tagOf (style : Style) (value : String) : Tag :=
  match style with
  | .plain => plainTag value
  | _ => .str

/-- The node stands for nothing. -/
def Node.isNull : Node → Bool
  | .scalar _ style value => tagOf style value = .null
  | _ => false

end Componentry.Yaml
