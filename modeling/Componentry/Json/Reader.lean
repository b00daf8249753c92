import Componentry.Json.Value
import Componentry.Text.Quoted

/-!
# Reading JSON

`Json.read` reads one document. It stops at the first character that no document could have at
that place and says what it was looking for. A document that is well formed may still hold a
number beyond the largest one; the first of these is reported, with the keys and positions that
lead to it.

Nesting is bounded by `maxDepth`, and reading is by recursion on the levels that are left.
-/

namespace Componentry.Json

/-- Where a value stands in a document: the keys and the positions that lead to it, the last one
first. -/
abbrev Trail := List String

/-- A number too large to be kept, as it is written, and where it stands. -/
structure TooLarge where
  digits : String
  trail : Trail
  deriving DecidableEq, Repr

/-- Why a text is no document. -/
inductive ReadError where
  | endOfInput
  /-- A character that cannot stand here, and what was being read. -/
  | unexpected (found : Char) (context : String)
  /-- What should be an escape sequence, from its backslash on. -/
  | badEscape (written : Bytes)
  /-- Lists and objects stand too deep inside one another. -/
  | tooDeep
  | range (number : TooLarge)
  deriving DecidableEq, Repr

/-- A character between single quotes. -/
def shownChar (c : Char) : String :=
  if c = '\'' then "'\\''"
  else if c = '"' then "'\"'"
  else "'" ++ String.ofList (Text.quoteChar c) ++ "'"

/-- Bytes between back quotes, if nothing in them would be hard to see there. -/
def shownBytes (bs : Bytes) : String :=
  let cs := Text.decodeChars bs
  let clear (c : Char) : Bool :=
    Text.isPrintable c && c ≠ ' ' && c ≠ Char.ofNat 0x60 && c ≠ Text.replacement
  if cs.all clear then "`" ++ String.ofList cs ++ "`" else Text.quoteBytes bs

/-- A key as it stands in a trail: `~` is `~0` and a slash is `~1`. -/
def trailText (key : String) : String :=
  String.ofList (key.toList.flatMap fun c =>
    if c = '~' then ['~', '0'] else if c = '/' then ['~', '1'] else [c])

/-- The place that a trail leads to. A trail of positions only leads to no field. -/
def placeText (trail : Trail) : String :=
  let path := String.intercalate "." (trail.reverse.map trailText)
  let isPosition (part : String) : Bool := part ≠ "" && part.toList.all Char.isDigit
  if path = "" then "Go value"
  else if trail.all isPosition then "." ++ path
  else "Go struct field ." ++ path

def ReadError.message : ReadError → String
  | .endOfInput => "unexpected end of JSON input"
  | .unexpected c context => "invalid character " ++ shownChar c ++ " " ++ context
  | .badEscape written => "invalid escape sequence " ++ shownBytes written ++ " in string"
  | .tooDeep => "exceeded max depth"
  | .range n =>
    "json: cannot unmarshal number " ++ n.digits ++ " into " ++ placeText n.trail ++
      " of type float64"

/-- What is left to read, and the first number found to be too large. -/
structure Input where
  rest : List Char
  tooLarge : Option TooLarge

/-- A reader of a part of a document. -/
abbrev Read := StateT Input (Except ReadError)

def peek? : Read (Option Char) := fun i => .ok (i.rest.head?, i)

/-- Leave out the next character. -/
def skip : Read Unit := fun i => .ok ((), { i with rest := i.rest.tail })

/-- Take the characters at the front of which `p` holds. -/
def takeWhile (p : Char → Bool) : Read (List Char) := fun i =>
  .ok (i.rest.takeWhile p, { i with rest := i.rest.dropWhile p })

/-- Stop at the next character. -/
def refuse {α : Type} (context : String) : Read α := fun i =>
  match i.rest with
  | [] => .error .endOfInput
  | c :: _ => .error (.unexpected c context)

/-- Run a loop whose every round takes a character. -/
def bounded {α : Type} (loop : Nat → Read α) : Read α := fun i => loop (i.rest.length + 1) i

/-- Blank characters between the parts of a document. -/
def isBlank (c : Char) : Bool := c = ' ' || c = '\t' || c = '\r' || c = '\n'

/-- Leave out blanks and look at what follows. -/
def peekPart? : Read (Option Char) := do
  let _ ← takeWhile isBlank
  peek?

/-! ## Words and numbers -/

/-- The letters `cs` of the word `word`. -/
def readWord (word : String) : List Char → Read Unit
  | [] => return ()
  | c :: cs => do
    if (← peek?) = some c then
      skip
      readWord word cs
    else refuse ("in literal " ++ word ++ " (expecting '" ++ String.singleton c ++ "')")

def isDigit (c : Char) : Bool := '0' ≤ c && c ≤ '9'

/-- One or more digits. -/
def readDigits : Read (List Char) := do
  match ← takeWhile isDigit with
  | [] => refuse "in numeric literal"
  | ds => return ds

/-- The whole part of a number: a zero alone, or digits that do not start with one. -/
def readWhole : Read (List Char) := do
  match ← peek? with
  | some '0' =>
    skip
    return ['0']
  | _ => readDigits

/-- The digits after the point, if there is one. -/
def readPlaces : Read (List Char) := do
  if (← peek?) = some '.' then
    skip
    readDigits
  else return []

/-- The exponent, if there is one: its mark and sign, and its digits. -/
def readExponent : Read (List Char × List Char) := do
  let mark ← peek?
  match mark with
  | some c =>
    if c = 'e' || c = 'E' then
      skip
      let sign ← match ← peek? with
        | some '+' => do
          skip
          pure ['+']
        | some '-' => do
          skip
          pure ['-']
        | _ => pure []
      let ds ← readDigits
      return (c :: sign, ds)
    else return ([], [])
  | none => return ([], [])

/-- The whole number that digits write. -/
def digitsValue (ds : List Char) : Nat := ds.foldl (fun n c => 10 * n + (c.toNat - 48)) 0

/-- A number that stands at the end of a trail. -/
def readNumber (trail : Trail) : Read Json := do
  let negative := (← peek?) = some '-'
  if negative then skip
  let whole ← readWhole
  let places ← readPlaces
  let (mark, power) ← readExponent
  let exponent : Int := digitsValue power
  let signed := if mark.contains '-' then -exponent else exponent
  let decimal : Number.Decimal := ⟨digitsValue (whole ++ places), signed - places.length⟩
  match decimal.toBinary64? negative with
  | some v => return .number v
  | none =>
    let written := String.ofList
      ((if negative then ['-'] else []) ++ whole ++
        (if places.isEmpty then [] else '.' :: places) ++ mark ++ power)
    modify fun i => { i with tooLarge := i.tooLarge <|> some ⟨written, trail⟩ }
    return .null

/-! ## Texts -/

/-- The number that hexadecimal digits write. -/
def hexNumber? (cs : List Char) : Option Nat :=
  cs.foldl (fun n? c => do return 16 * (← n?) + (← Text.hexValue? c)) (some 0)

/-- The character that an escape letter stands for. -/
def escapeLetter? (c : Char) : Option Char :=
  match c with
  | '"' => some '"'
  | '\\' => some '\\'
  | '/' => some '/'
  | 'b' => some '\x08'
  | 'f' => some '\x0c'
  | 'n' => some '\n'
  | 'r' => some '\r'
  | 't' => some '\t'
  | _ => none

/-- The bytes at the front of what is left, from a backslash on. An escape sequence has six at
most. -/
def escapeBytes (rest : List Char) : Bytes := (Text.utf8 (String.ofList (rest.take 6))).take 6

/-- The unit of an escape sequence: a character, or a code unit. What is left starts with its
backslash. A sequence that breaks off at the end of the text could still become one. -/
def readEscape : Read (Char ⊕ Nat) := fun i =>
  let bytes := escapeBytes i.rest
  let digits := (i.rest.drop 2).take 4
  match i.rest with
  | _ :: 'u' :: more =>
    match hexNumber? digits with
    | some n =>
      if digits.length = 4 then .ok (.inr n, { i with rest := more.drop 4 })
      else .error .endOfInput
    | none => .error (.badEscape bytes)
  | _ :: c :: more =>
    match escapeLetter? c with
    | some e => .ok (.inl e, { i with rest := more })
    | none => .error (.badEscape (bytes.take 2))
  | _ => .error .endOfInput

/-- The units of a text up to its closing quote. -/
def readUnits : Nat → Read (List (Char ⊕ Nat))
  | 0 => refuse ""
  | n + 1 => do
    match ← peek? with
    | some '"' => do
      skip
      return []
    | some '\\' => do
      let u ← readEscape
      return u :: (← readUnits n)
    | some c =>
      if c.toNat < 0x20 then refuse "in string"
      else
        skip
        return .inl c :: (← readUnits n)
    | none => refuse ""

/-- The first half of a pair of code units. -/
def isHighUnit (u : Nat) : Bool := 0xD800 ≤ u && u ≤ 0xDBFF

/-- The second half of a pair of code units. -/
def isLowUnit (u : Nat) : Bool := 0xDC00 ≤ u && u ≤ 0xDFFF

/-- The character of a code unit that is not part of a pair: a half without its other half is
shown as U+FFFD. -/
def loneUnit (u : Nat) : Char :=
  if isHighUnit u || isLowUnit u then Text.replacement else Char.ofNat u

/-- The characters of the units. Two halves that follow each other are one character. -/
def joinUnits : List (Char ⊕ Nat) → List Char
  | [] => []
  | .inl c :: us => c :: joinUnits us
  | .inr u :: .inr v :: us =>
    if isHighUnit u && isLowUnit v then
      Char.ofNat (0x10000 + (u - 0xD800) * 0x400 + (v - 0xDC00)) :: joinUnits us
    else loneUnit u :: joinUnits (.inr v :: us)
  | .inr u :: us => loneUnit u :: joinUnits us

/-- A text after its opening quote. -/
def readText : Read String := do
  return String.ofList (joinUnits (← bounded readUnits))

/-! ## Values -/

/-- The items of a list from position `index` on, up to its closing bracket. -/
def readItems (item : Trail → Read Json) (trail : Trail) : Nat → Nat → Read (List Json)
  | _, 0 => refuse ""
  | index, n + 1 => do
    match ← peekPart? with
    | some ',' => do
      skip
      let v ← item (toString index :: trail)
      return v :: (← readItems item trail (index + 1) n)
    | some ']' => do
      skip
      return []
    | _ => refuse "after array element"

/-- One entry of an object. -/
def readEntry (item : Trail → Read Json) (trail : Trail) : Read (String × Json) := do
  match ← peekPart? with
  | some '"' => do
    skip
    let key ← readText
    match ← peekPart? with
    | some ':' => do
      skip
      return (key, ← item (key :: trail))
    | _ => refuse "after object key"
  | _ => refuse "looking for beginning of object key string"

/-- The entries of an object after the first, up to its closing brace. -/
def readEntries (item : Trail → Read Json) (trail : Trail) : Nat → Read (List (String × Json))
  | 0 => refuse ""
  | n + 1 => do
    match ← peekPart? with
    | some ',' => do
      skip
      let e ← readEntry item trail
      return e :: (← readEntries item trail n)
    | some '\x7d' => do
      skip
      return []
    | _ => refuse "after object key:value pair"

/-- A list after its opening bracket. -/
def readList (item : Trail → Read Json) (trail : Trail) : Read Json := do
  if (← peekPart?) = some ']' then
    skip
    return .list []
  else
    let v ← item ("0" :: trail)
    return .list (v :: (← bounded (readItems item trail 1)))

/-- An object after its opening brace. -/
def readObject (item : Trail → Read Json) (trail : Trail) : Read Json := do
  if (← peekPart?) = some '\x7d' then
    skip
    return .object []
  else
    let e ← readEntry item trail
    return .object (e :: (← bounded (readEntries item trail)))

/-- A value that is neither a list nor an object. -/
def readScalar (trail : Trail) (c : Char) : Read Json := do
  match c with
  | '"' => do
    skip
    return .text (← readText)
  | 't' => do
    skip
    readWord "true" ['r', 'u', 'e']
    return .bool true
  | 'f' => do
    skip
    readWord "false" ['a', 'l', 's', 'e']
    return .bool false
  | 'n' => do
    skip
    readWord "null" ['u', 'l', 'l']
    return .null
  | _ =>
    if c = '-' || isDigit c then readNumber trail else refuse "looking for beginning of value"

/-- A value with at most `depth` lists and objects inside one another. -/
def readValue : Nat → Trail → Read Json
  | 0, trail => do
    match ← peekPart? with
    | some c => if c = '[' || c = '\x7b' then throw .tooDeep else readScalar trail c
    | none => refuse ""
  | depth + 1, trail => do
    match ← peekPart? with
    | some '[' => do
      skip
      readList (readValue depth) trail
    | some '\x7b' => do
      skip
      readObject (readValue depth) trail
    | some c => readScalar trail c
    | none => refuse ""

/-- The levels that a document may have. -/
def maxDepth : Nat := 10000

def read (s : String) : Except ReadError Json :=
  let document : Read Json := do
    let v ← readValue maxDepth []
    if (← peekPart?).isSome then refuse "after top-level value" else return v
  match document.run ⟨s.toList, none⟩ with
  | .error e => .error e
  | .ok (v, i) =>
    match i.tooLarge with
    | none => .ok v
    | some n => .error (.range n)

end Componentry.Json
