import Componentry.Console.Suggest
import Componentry.Text.Quoted
import Componentry.Text.Truth
import Componentry.Text.Utf8

/-!
# Command lines

A command line holds flags and plain arguments in any order. A flag is `--name value`,
`--name=value` or, if it has a letter, `-l value`, `-lvalue` or `-l=value`. A switch stands alone:
the next argument is not its value, and letters of switches may stand together behind one dash.
After `--` there are only plain arguments.

The first plain argument names a command. To find it flags are skipped, and the argument after a
flag that is no switch is taken for its value.
-/

namespace Componentry

inductive FlagKind where
  | switch | text | number
  deriving DecidableEq, Repr

structure Flag where
  name : String
  letter : Option Char := none
  kind : FlagKind
  deriving DecidableEq, Repr

/-- Why a value does not fit a flag. -/
inductive ValueError where
  | notSwitch (value : String)
  | notNumber (value : String)
  | outOfRange (value : String)
  deriving DecidableEq, Repr

def ValueError.message : ValueError → String
  | .notSwitch v => "strconv.ParseBool: parsing " ++ Text.quote v ++ ": invalid syntax"
  | .notNumber v => "strconv.ParseInt: parsing " ++ Text.quote v ++ ": invalid syntax"
  | .outOfRange v => "strconv.ParseInt: parsing " ++ Text.quote v ++ ": value out of range"

/-- What is wrong with a command line. -/
inductive UsageError where
  | badSyntax (argument : String)
  | unknownFlag (name : String)
  | unknownLetter (letter : Char) (letters : String)
  | missingValue (name : String)
  | missingLetterValue (letter : Char) (letters : String)
  | badValue (flag : Flag) (value : String) (why : ValueError)
  | unknownCommand (name command : String) (suggestions : List String)
  | argumentCount (expected received : Nat)
  deriving DecidableEq, Repr

/-- A letter between single quotes. -/
def quotedLetter (c : Char) : String :=
  if c = '\'' then "'\\''"
  else if c = '"' then "'\"'"
  else "'" ++ String.ofList (Text.quoteChar c) ++ "'"

/-- A flag as messages name it. -/
def Flag.shown (f : Flag) : String :=
  match f.letter with
  | some c => String.ofList ['-', c] ++ ", --" ++ f.name
  | none => "--" ++ f.name

def UsageError.message : UsageError → String
  | .badSyntax argument => "bad flag syntax: " ++ argument
  | .unknownFlag name => "unknown flag: --" ++ name
  | .unknownLetter c letters =>
    "unknown shorthand flag: " ++ quotedLetter c ++ " in -" ++ letters
  | .missingValue name => "flag needs an argument: --" ++ name
  | .missingLetterValue c letters =>
    "flag needs an argument: " ++ quotedLetter c ++ " in -" ++ letters
  | .badValue f value why =>
    "invalid argument " ++ Text.quote value ++ " for " ++ Text.quote f.shown ++ " flag: " ++
      why.message
  | .unknownCommand name command suggestions =>
    "unknown command " ++ Text.quote name ++ " for " ++ Text.quote command ++
      if suggestions.isEmpty then ""
      else "\n\nDid you mean this?\n" ++ String.join (suggestions.map fun s => "\t" ++ s ++ "\n")
  | .argumentCount expected received =>
    "accepts " ++ toString expected ++ " arg(s), received " ++ toString received

/-! ## Values -/

/-- The value of a digit or a letter as a digit. -/
def digitValue (c : Char) : Option Nat :=
  if '0' ≤ c && c ≤ '9' then some (c.toNat - 48)
  else if 'a' ≤ c && c ≤ 'z' then some (c.toNat - 87)
  else if 'A' ≤ c && c ≤ 'Z' then some (c.toNat - 55)
  else none

/-- The base of a number, whether it is written in front, and the digits. -/
def numberBase : List Char → Nat × Bool × List Char
  | '0' :: x :: d :: ds =>
    if x = 'x' || x = 'X' then (16, true, d :: ds)
    else if x = 'b' || x = 'B' then (2, true, d :: ds)
    else if x = 'o' || x = 'O' then (8, true, d :: ds)
    else (8, true, x :: d :: ds)
  | '0' :: x :: ds => (8, true, x :: ds)
  | ds => (10, false, ds)

/-- Low lines stand only between digits; one may follow a base that is written in front. -/
def separatorsFit : Bool → List Char → Bool
  | after, [] => after
  | after, '_' :: cs => after && separatorsFit false cs
  | _, _ :: cs => separatorsFit true cs

/-- The number of digits after those that give `n`. It stops at the first sign that is no digit of
the base, and at the first digit with which the number takes more than sixty-four bits. -/
def digitsFrom (s : String) (base : Nat) : Nat → List Char → Except ValueError Nat
  | n, [] => .ok n
  | n, c :: cs =>
    if c = '_' then digitsFrom s base n cs
    else match digitValue c with
      | none => .error (.notNumber s)
      | some v =>
        if base ≤ v then .error (.notNumber s)
        else if Nat.pow 2 64 ≤ base * n + v then .error (.outOfRange s)
        else digitsFrom s base (base * n + v) cs

/-- The size of the number `s`, whose part without the sign is `cs`. -/
def magnitudeOf (s : String) (cs : List Char) : Except ValueError Nat := do
  let (base, marked, body) := numberBase cs
  let n ← digitsFrom s base 0 body
  if body.isEmpty || (body.contains '_' && !separatorsFit marked body) then throw (.notNumber s)
  return n

/-- The whole number that a text writes, if it fits in sixty-four bits. -/
def wholeNumber (s : String) : Except ValueError Int := do
  let (negative, body) := match s.toList with
    | '-' :: cs => (true, cs)
    | '+' :: cs => (false, cs)
    | cs => (false, cs)
  let n ← magnitudeOf s body
  if negative then if n ≤ Nat.pow 2 63 then return -(n : Int) else throw (.outOfRange s)
  else if n < Nat.pow 2 63 then return n else throw (.outOfRange s)

/-- A value that fits a flag, as it is kept. -/
def Flag.value (f : Flag) (v : String) : Except UsageError String :=
  match f.kind with
  | .text => .ok v
  | .switch =>
    match Text.truthOf? v with
    | some b => .ok (if b then "true" else "false")
    | none => .error (.badValue f v (.notSwitch v))
  | .number =>
    match wholeNumber v with
    | .ok n => .ok (toString n)
    | .error e => .error (.badValue f v e)

/-! ## Flags and arguments -/

/-- A command line that has been read: the flags that were set, the last first, and the plain
arguments. -/
structure Arguments where
  set : List (String × String)
  plain : List String

namespace Arguments

/-- The value of a flag that was set. -/
def value? (a : Arguments) (name : String) : Option String := a.set.lookup name

/-- A switch is on. -/
def isOn (a : Arguments) (name : String) : Bool := a.value? name = some "true"

def setFlag (a : Arguments) (f : Flag) (v : String) : Except UsageError Arguments := do
  return { a with set := (f.name, ← f.value v) :: a.set }

end Arguments

def flagNamed? (flags : List Flag) (name : String) : Option Flag := flags.find? (·.name == name)

/-- The flag with a letter. -/
def flagLettered? (flags : List Flag) (c : Char) : Option Flag :=
  flags.find? (·.letter == some c)

/-- The name and, after `=`, the value in the text behind two dashes. -/
def splitValue (cs : List Char) : String × Option String :=
  match cs.dropWhile (· ≠ '=') with
  | _ :: value => (String.ofList (cs.takeWhile (· ≠ '=')), some (String.ofList value))
  | [] => (String.ofList cs, none)

/-- Read a flag behind two dashes; the arguments that are left. -/
def readLong (flags : List Flag) (body : List Char) (rest : List String) (a : Arguments) :
    Except UsageError (Arguments × List String) := do
  match body with
  | '-' :: _ | '=' :: _ | [] => throw (.badSyntax (String.ofList ('-' :: '-' :: body)))
  | _ =>
    let (name, given) := splitValue body
    let some f := flagNamed? flags name | throw (.unknownFlag name)
    match given, f.kind, rest with
    | some v, _, _ => return (← a.setFlag f v, rest)
    | none, .switch, _ => return (← a.setFlag f "true", rest)
    | none, _, v :: more => return (← a.setFlag f v, more)
    | none, _, [] => throw (.missingValue name)

/-- The letter that messages show for a first character: letters beyond the English ones are shown
by the first byte of their encoded first byte. -/
def shownLetter (c : Char) : Char :=
  if c.toNat < 0x80 then c else Char.ofNat 0xC3

/-- Read letters behind one dash; the arguments that are left. -/
def readShort (flags : List Flag) :
    List Char → List String → Arguments → Except UsageError (Arguments × List String)
  | [], rest, a => .ok (a, rest)
  | c :: cs, rest, a =>
    let letters := String.ofList (c :: cs)
    match flagLettered? flags c with
    | none => .error (.unknownLetter (shownLetter c) letters)
    | some f =>
      match cs, f.kind, rest with
      | '=' :: v :: vs, _, _ => do return (← a.setFlag f (String.ofList (v :: vs)), rest)
      | _, .switch, _ => do readShort flags cs rest (← a.setFlag f "true")
      | v :: vs, _, _ => do return (← a.setFlag f (String.ofList (v :: vs)), rest)
      | [], _, v :: more => do return (← a.setFlag f v, more)
      | [], _, [] => .error (.missingLetterValue (shownLetter c) letters)

/-- Read a command line; `fuel` is at least the number of arguments. -/
def readWithin (flags : List Flag) : Nat → List String → Arguments → Except UsageError Arguments
  | 0, _, a => .ok a
  | _ + 1, [], a => .ok a
  | fuel + 1, s :: rest, a => do
    match s.toList with
    | '-' :: '-' :: [] => return { a with plain := a.plain ++ rest }
    | '-' :: '-' :: body =>
      let (a, rest) ← readLong flags body rest a
      readWithin flags fuel rest a
    | '-' :: c :: cs =>
      let (a, rest) ← readShort flags (c :: cs) rest a
      readWithin flags fuel rest a
    | _ => readWithin flags fuel rest { a with plain := a.plain ++ [s] }

def readArguments (flags : List Flag) (args : List String) : Except UsageError Arguments :=
  readWithin flags args.length args ⟨[], []⟩

/-! ## Finding the command -/

/-- The argument after this one is taken for its value. -/
def takesNext (flags : List Flag) (s : String) : Bool :=
  match s.toList with
  | '-' :: '-' :: body =>
    !body.contains '=' && (flagNamed? flags (String.ofList body)).all (·.kind != .switch)
  | ['-', c] => c ≠ '=' && c.toNat < 0x80 && (flagLettered? flags c).all (·.kind != .switch)
  | _ => false

/-- The plain arguments of a command line that is not read yet. -/
def plainArguments (flags : List Flag) : List String → List String
  | [] => []
  | "--" :: _ => []
  | s :: rest =>
    if takesNext flags s then
      match rest with
      | _ :: next :: more => plainArguments flags (next :: more)
      | _ => []
    else if s = "" || s.startsWith "-" then plainArguments flags rest
    else s :: plainArguments flags rest

/-- The arguments without the first that is the name `x`. -/
def withoutFirst (flags : List Flag) (x : String) : List String → List String
  | [] => []
  | "--" :: rest => "--" :: rest
  | s :: rest =>
    if takesNext flags s then
      match rest with
      | v :: more => s :: v :: withoutFirst flags x more
      | [] => [s]
    else if s = x then rest
    else s :: withoutFirst flags x rest

/-- The farthest that a command may be from a name and still be suggested. -/
def commandDistance : Nat := 2

/-- The commands that a name may have been meant for: those close to it, and those that begin with
it. -/
def similarCommands (commands : List String) (name : String) : List String :=
  let bytes (s : String) : Bytes := Text.utf8 (Text.lower s)
  commands.filter fun c =>
    editDistance (bytes name) (bytes c) ≤ commandDistance ||
      (Text.lower c).startsWith (Text.lower name)

end Componentry
