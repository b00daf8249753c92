import Componentry.Snippet.Token

/-!
# Scanning

`scan` cuts a byte sequence into pieces from left to right. A piece is a token, a fault, or blank
text: a space, a tab, a carriage return, a line feed, or a comment from `//` up to the end of its
line. Each piece keeps the bytes it spans, so the spans of all pieces put together are the input.

Columns count bytes. Only a line feed that is a piece of its own starts a new line.

`tokens` and `faults` are what the pieces hold, in order; the tokens are closed by an end mark
that stands after the last piece.
-/

namespace Componentry.Snippet

open Text

/-! ## Byte classes -/

def isDigit (b : UInt8) : Bool := 48 ≤ b.toNat && b.toNat ≤ 57

/-- A byte that may stand in a run of digits: a digit or `_`. -/
def isDigitPart (b : UInt8) : Bool := isDigit b || b.toNat == 95

/-- A byte that may start a word. -/
def isWordStart (b : UInt8) : Bool := isNameStart (byteChar b)

/-- A byte that may follow in a word. -/
def isWordPart (b : UInt8) : Bool := isNamePart (byteChar b)

def lineFeed : UInt8 := 10

/-- The characters `cs` come next in `bs`. -/
def follows : List Char → Bytes → Bool
  | [], _ => true
  | _ :: _, [] => false
  | c :: cs, b :: bs => byteChar b == c && follows cs bs

/-! ## Faults -/

/-- Why a piece is no token. -/
inductive Fault where
  /-- A byte that starts nothing. -/
  | unexpected (byte : UInt8)
  /-- A quoted text, opened at the location, without a closing quote on its line. -/
  | unterminated (opened : Location)
  /-- A number whose exponent has no digits. -/
  | bareExponent
  /-- A number with two points, or beyond the largest number. -/
  | badNumber (lexeme : Bytes)
  deriving DecidableEq, Repr

def Fault.message : Fault → String
  | .unexpected b => "Unexpected character: '" ++ String.singleton (byteChar b) ++ "'"
  | .unterminated l => "Unterminated string starting at " ++ l.text
  | .bareExponent => "Invalid number: expected digits after exponent"
  | .badNumber lexeme => "Invalid number literal: " ++ decode lexeme

/-! ## Pieces -/

inductive Content where
  | token (kind : TokenKind)
  | fault (why : Fault)
  | blank
  deriving DecidableEq, Repr

/-- A piece with the bytes it spans and the location of the first of them. -/
structure Piece where
  content : Content
  span : Bytes
  loc : Location
  deriving DecidableEq, Repr

/-- The location just after a piece. -/
def Piece.stop (p : Piece) : Location :=
  if p.span = [lineFeed] then p.loc.nextLine else p.loc.advance p.span.length

/-- The bytes that an escape sequence stands for: five letters and marks have a meaning, and a
backslash before anything else is kept. -/
def unescape (b : UInt8) : Bytes :=
  match byteChar b with
  | 'n' => [10]
  | 't' => [9]
  | 'r' => [13]
  | '\\' => [b]
  | '"' => [b]
  | '\'' => [b]
  | _ => [92, b]

/-- The rest of a quoted text after its opening `quote`: its value, the number of bytes it takes,
and whether it is closed. -/
def quotedRest (quote : UInt8) : Bytes → Bytes × Nat × Bool
  | [] => ([], 0, false)
  | b :: rest =>
    if b = quote then ([], 1, true)
    else if b = lineFeed then ([], 0, false)
    else if b = 92 then
      match rest with
      | [] => ([], 1, false)
      | e :: more =>
        let (value, n, closed) := quotedRest quote more
        (unescape e ++ value, n + 2, closed)
    else
      let (value, n, closed) := quotedRest quote rest
      (b :: value, n + 1, closed)

/-- A quoted text opened by `quote` at `loc`. -/
def quotedAt (loc : Location) (quote : UInt8) (rest : Bytes) : Content × Nat :=
  let (value, n, closed) := quotedRest quote rest
  if closed then (.token (.quoted (decode value)), n) else (.fault (.unterminated loc), n)

/-- The whole number that a run of digits writes; `_` is skipped. -/
def digitsValue (ds : Bytes) : Nat :=
  (ds.filter isDigit).foldl (fun n b => 10 * n + (b.toNat - 48)) 0

/-- The digits after the point that opens `bs`, if a point followed by a digit does. -/
def placesAt (bs : Bytes) : Option Bytes :=
  match bs with
  | p :: d :: rest =>
    if byteChar p == '.' && isDigit d then some (d :: rest.takeWhile isDigitPart) else none
  | _ => none

/-- The exponent that opens `bs`, if one does: its value, or `none` when it has no digits, and the
number of bytes it takes. -/
def exponentAt (bs : Bytes) : Option (Option Int × Nat) :=
  match bs with
  | e :: rest =>
    if byteChar e == 'e' || byteChar e == 'E' then
      let signed := follows ['+'] rest || follows ['-'] rest
      let digits := (if signed then rest.drop 1 else rest).takeWhile isDigit
      let width := 1 + (if signed then 1 else 0) + digits.length
      let value : Int := digitsValue digits
      if digits.isEmpty then some (none, width)
      else some (some (if follows ['-'] rest then -value else value), width)
    else none
  | [] => none

/-- A number that starts with `first`, a digit, or a point before a digit. A number that starts
with its point may not have a second one. -/
def numberAt (first : UInt8) (rest : Bytes) : Content × Nat :=
  let run := rest.takeWhile isDigitPart
  let places? := placesAt (rest.drop run.length)
  let width := run.length + (places?.map (·.length + 1)).getD 0
  let pointFirst := !isDigit first
  let (whole, places) := if pointFirst then ([], run) else (first :: run, places?.getD [])
  let finish (power : Int) (width : Nat) : Content × Nat :=
    let decimal : Number.Decimal :=
      ⟨digitsValue (whole ++ places), power - (places.filter isDigit).length⟩
    let value? := if pointFirst && places?.isSome then none else decimal.toBinary64? false
    match value? with
    | some v => (.token (.number v), width)
    | none => (.fault (.badNumber (first :: rest.take width)), width)
  match exponentAt (rest.drop width) with
  | none => finish 0 width
  | some (none, n) => (.fault .bareExponent, width + n)
  | some (some power, n) => finish power (width + n)

/-- The longest mark that starts with `c`, with the number of bytes of `rest` it takes. -/
def markAt (c : Char) (rest : Bytes) : Option (Punct × Nat) :=
  match c with
  | '(' => some (.lparen, 0)
  | ')' => some (.rparen, 0)
  | '\x7b' => some (.lbrace, 0)
  | '\x7d' => some (.rbrace, 0)
  | '[' => some (.lbracket, 0)
  | ']' => some (.rbracket, 0)
  | ',' => some (.comma, 0)
  | ';' => some (.semicolon, 0)
  | ':' => some (.colon, 0)
  | '.' => some (.dot, 0)
  | '?' => some (.question, 0)
  | '@' => some (.atSign, 0)
  | '+' => some (.plus, 0)
  | '-' => some (.minus, 0)
  | '*' => some (.star, 0)
  | '%' => some (.percent, 0)
  | '/' => some (.slash, 0)
  | '>' => some (.greater, 0)
  | '!' =>
    if follows ['=', '='] rest then some (.strictUnequal, 2)
    else if follows ['='] rest then some (.unequal, 1)
    else some (.bang, 0)
  | '=' =>
    if follows ['=', '='] rest then some (.strictEqual, 2)
    else if follows ['='] rest then some (.equal, 1)
    else if follows ['>'] rest then some (.arrow, 1)
    else some (.assign, 0)
  | '<' => if follows ['='] rest then some (.lessEqual, 1) else some (.less, 0)
  | '|' => if follows ['|'] rest then some (.or, 1) else some (.pipe, 0)
  | '&' => if follows ['&'] rest then some (.and, 1) else some (.amp, 0)
  | _ => none

/-- A piece that is a single blank byte. -/
def isBlank (b : UInt8) : Bool := b = 32 || b = 9 || b = 13 || b = lineFeed

/-- The piece that starts with the byte `b`: what it is, and how many bytes of `rest` it takes. -/
def pieceAt (loc : Location) (b : UInt8) (rest : Bytes) : Content × Nat :=
  let c := byteChar b
  if isBlank b then (.blank, 0)
  else if c = '"' || c = '\'' then quotedAt loc b rest
  else if c = '/' && follows ['/'] rest then (.blank, (rest.takeWhile (· ≠ lineFeed)).length)
  else if isDigit b || (c = '.' && rest.head?.any isDigit) then numberAt b rest
  else if isWordStart b then
    let more := rest.takeWhile isWordPart
    (.token (.word (decode (b :: more))), more.length)
  else match markAt c rest with
    | some (m, n) => (.token (.punct m), n)
    | none => (.fault (.unexpected b), 0)

/-- The pieces of a byte sequence whose first byte is at `loc`. -/
def scanFrom (loc : Location) : Bytes → List Piece
  | [] => []
  | b :: rest =>
    let (content, n) := pieceAt loc b rest
    let piece : Piece := ⟨content, b :: rest.take n, loc⟩
    piece :: scanFrom piece.stop (rest.drop n)
termination_by bs => bs.length
decreasing_by simp only [List.length_drop, List.length_cons]; omega

/-- The pieces of a byte sequence. -/
def scan (source : Bytes) : List Piece := scanFrom Location.start source

/-! ## Tokens and faults -/

/-- The token that a piece holds. -/
def Piece.token? (p : Piece) : Option Token :=
  match p.content with
  | .token kind => some ⟨kind, p.span, p.loc⟩
  | _ => none

/-- A fault with its location and the first bytes it concerns. -/
structure ScanError where
  why : Fault
  lexeme : Bytes
  loc : Location
  deriving DecidableEq, Repr

/-- The number of bytes of a faulty piece that are shown. -/
def shownBytes : Nat := 20

/-- The fault that a piece holds. -/
def Piece.fault? (p : Piece) : Option ScanError :=
  match p.content with
  | .fault why => some ⟨why, p.span.take shownBytes, p.loc⟩
  | _ => none

/-- One line about a fault. -/
def ScanError.describe (e : ScanError) : String :=
  "Lexical error at " ++ e.loc.text ++ ": " ++ e.why.message ++
    " (near '" ++ decode e.lexeme ++ "')"

/-- The end mark after the pieces `ps`. -/
def endMark (ps : List Piece) : Token :=
  ⟨.done, [], (ps.getLast?.map Piece.stop).getD Location.start⟩

/-- The tokens of a byte sequence, closed by the end mark. -/
def tokens (source : Bytes) : List Token :=
  (scan source).filterMap Piece.token? ++ [endMark (scan source)]

/-- The faults of a byte sequence. -/
def faults (source : Bytes) : List ScanError := (scan source).filterMap Piece.fault?

end Componentry.Snippet
