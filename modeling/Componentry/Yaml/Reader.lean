import Componentry.Text.Quoted
import Componentry.Yaml.Node

/-!
# Reading YAML

`parse` is one way to read the first document of a text. The part of YAML that is read: block
sequences and mappings, flow sequences and mappings, plain, quoted and block scalars, comments and
document markers. Directives, anchors, aliases, tags and explicit keys are refused, and so are tabs
that indent a block.

A line ends in a line feed or in one of the two separators of Unicode; every other way to end a
line is one line feed here. A separator stands for itself where lines are joined, while a line feed
becomes a blank.

Structure follows columns. The content of a block collection stands to the right of the
collection's own column, except that the items of a sequence may stand in the column of the key
they belong to. Readers for nested content are fields of `Rules`, unrolled often enough that a
text cannot nest deeper.
-/

namespace Componentry.Yaml

/-- What is left to read, and where it starts. -/
structure Cursor where
  rest : List Char
  loc : Location

/-- A reader of a part of a document. -/
abbrev Read := StateT Cursor (Except Malformed)

/-! ## Characters -/

def peek? : Read (Option Char) := fun c => .ok (c.rest.head?, c)

/-- The character after the next. -/
def peekSecond? : Read (Option Char) := fun c => .ok (c.rest.tail.head?, c)

/-- The location of the next character. -/
def here : Read Location := fun c => .ok (c.loc, c)

/-- The column of the next character, counted from zero. -/
def column : Read Int := do return (← here).column - 1

/-- The end of a line: a line feed, or a line or paragraph separator. -/
def isBreak (c : Char) : Bool :=
  c = '\n' || c = Char.ofNat 0x2028 || c = Char.ofNat 0x2029

/-- The cursor after one character. -/
def Cursor.next (c : Cursor) : Cursor :=
  match c.rest with
  | [] => c
  | x :: xs => ⟨xs, if isBreak x then c.loc.nextLine else c.loc.advance 1⟩

/-- The cursor after `n` characters. -/
def Cursor.drop : Nat → Cursor → Cursor
  | 0, c => c
  | n + 1, c => Cursor.drop n c.next

/-- Leave out `n` characters. -/
def skip (n : Nat) : Read Unit := fun c => .ok ((), c.drop n)

/-- Take the characters at the front of which `p` holds. -/
def takeWhile (p : Char → Bool) : Read (List Char) := fun c =>
  let taken := c.rest.takeWhile p
  .ok (taken, c.drop taken.length)

def malformed {α : Type} : Read α := fun c => .error ⟨c.loc⟩

/-- Run a loop whose every round takes a character. -/
def bounded {α : Type} (loop : Nat → Read α) : Read α := fun c => loop (c.rest.length + 1) c

/-- A blank within a line. -/
def isBlank (c : Char) : Bool := c = ' ' || c = '\t'

/-- The end of a word: a blank, the end of the line or the end of the text. -/
def endsWord : Option Char → Bool
  | some c => isBlank c || isBreak c
  | none => true

/-- Leave out blanks of this line. -/
def skipBlanks : Read Unit := do
  let _ ← takeWhile isBlank

/-- Leave out a comment. -/
def skipComment : Read Unit := do
  if (← peek?) = some '#' then
    let _ ← takeWhile (!isBreak ·)

/-- Leave out the blanks in front of content. Outside flow collections a tab does not indent. -/
def skipIndent (inFlow : Bool) : Read Unit := do
  let _ ← takeWhile (· = ' ')
  if (← peek?) = some '\t' then
    if inFlow then skipBlanks else malformed

/-- Leave out blanks, comments and line ends. -/
def skipToContentLoop (inFlow : Bool) : Nat → Read Unit
  | 0 => malformed
  | n + 1 => do
    skipBlanks
    skipComment
    if (← peek?).any isBreak then
      skip 1
      skipIndent inFlow
      skipToContentLoop inFlow n

/-- Leave out blanks, comments and line ends. -/
def skipToContent (inFlow : Bool) : Read Unit := bounded (skipToContentLoop inFlow)

/-- Nothing but a comment is left on this line. -/
def lineIsOver : Read Bool := do
  skipBlanks
  match ← peek? with
  | none => return true
  | some c => return isBreak c || c = '#'

/-- The next word is the mark `c`. -/
def seesMark (c : Char) : Read Bool := do
  if (← peek?) = some c then return endsWord (← peekSecond?) else return false

/-! ## Folded lines -/

/-- What the line ends between two lines of one text stand for. -/
def folded : List Char → List Char
  | ['\n'] => [' ']
  | '\n' :: more => more
  | breaks => breaks

/-- Take blanks and line ends. -/
def takeSpace : Read (List Char) := takeWhile fun c => isBlank c || isBreak c

/-- Leave out blanks and take line ends. -/
def takeBreaks : Read (List Char) := do return (← takeSpace).filter isBreak

/-! ## Plain scalars -/

/-- A mark that ends a plain scalar inside a flow collection. -/
def isFlowMark (c : Char) : Bool :=
  c = ',' || c = '[' || c = ']' || c = '\x7b' || c = '\x7d'

/-- The length of the part of a plain scalar that stands on this line, blanks at its end
included. -/
def plainLength (inFlow afterBlank : Bool) : List Char → Nat
  | [] => 0
  | c :: rest =>
    if isBreak c || (c = '#' && afterBlank) || (c = ':' && endsWord rest.head?) ||
        (inFlow && isFlowMark c) then 0
    else 1 + plainLength inFlow (isBlank c) rest

/-- The list without the blanks at its end. -/
def trimEnd (cs : List Char) : List Char := (cs.reverse.dropWhile isBlank).reverse

/-- The part of a plain scalar that stands on this line. -/
def plainLine (inFlow : Bool) : Read (List Char) := fun c =>
  let n := plainLength inFlow false c.rest
  let text := trimEnd (c.rest.take n)
  .ok (text, c.drop text.length)

/-- The lines of a plain scalar after its first. In a block they stand to the right of column
`indent`, behind blanks that are no tabs. -/
def plainMore (inFlow : Bool) (indent : Int) : Nat → Read (List Char)
  | 0 => malformed
  | n + 1 => fun c => do
    let (space, c') ← takeSpace.run c
    let breaks := space.filter isBreak
    let stops := breaks.isEmpty || c'.rest.isEmpty || c'.rest.head? = some '#' ||
      (!inFlow && c'.loc.column - 1 ≤ indent)
    if stops then return ([], c)
    let lines := (space.splitOnP isBreak).tail
    if !inFlow && lines.any fun l => (l.take (indent + 1).toNat).contains '\t' then
      return ← malformed.run c'
    let (text, after) ← (plainLine inFlow).run c'
    if text.isEmpty then return ([], c)
    let (more, last) ← (plainMore inFlow indent n).run after
    return (folded breaks ++ text ++ more, last)

/-! ## Quoted scalars -/

/-- The character that an escape letter stands for. -/
def escapeLetter? (c : Char) : Option Char :=
  match c with
  | '0' => some '\x00'
  | 'a' => some '\x07'
  | 'b' => some '\x08'
  | 't' => some '\t'
  | '\t' => some '\t'
  | 'n' => some '\n'
  | 'v' => some '\x0b'
  | 'f' => some '\x0c'
  | 'r' => some '\r'
  | 'e' => some '\x1b'
  | ' ' => some ' '
  | '"' => some '"'
  | '\'' => some '\''
  | '/' => some '/'
  | '\\' => some '\\'
  | 'N' => some (Char.ofNat 0x85)
  | '_' => some (Char.ofNat 0xA0)
  | 'L' => some (Char.ofNat 0x2028)
  | 'P' => some (Char.ofNat 0x2029)
  | _ => none

/-- The number of hexadecimal digits after an escape letter. -/
def escapeWidth? (c : Char) : Option Nat :=
  match c with
  | 'x' => some 2
  | 'u' => some 4
  | 'U' => some 8
  | _ => none

/-- `n` hexadecimal digits after those that give `value`. -/
def readHex : Nat → Nat → Read Nat
  | 0, value => return value
  | n + 1, value => do
    match (← peek?).bind Text.hexValue? with
    | some d =>
      skip 1
      readHex n (16 * value + d)
    | none => malformed

/-- What an escape sequence stands for, after its backslash. -/
def readEscape : Read (List Char) := do
  match ← peek? with
  | none => malformed
  | some c =>
    if isBreak c then return (← takeBreaks).tail
    skip 1
    match escapeLetter? c, escapeWidth? c with
    | some e, _ => return [e]
    | none, some width => return [Char.ofNat (← readHex width 0)]
    | none, none => malformed

/-- The text of a quoted scalar up to its closing quote. -/
def quotedLoop (quote : Char) : Nat → Read (List Char)
  | 0 => malformed
  | n + 1 => do
    match ← peek? with
    | none => malformed
    | some c =>
      if c = quote then
        skip 1
        if quote = '\'' && (← peek?) = some '\'' then
          skip 1
          return '\'' :: (← quotedLoop quote n)
        else return []
      else if c = '\\' && quote = '"' then
        skip 1
        let text ← readEscape
        return text ++ (← quotedLoop quote n)
      else if isBlank c || isBreak c then
        let blanks ← takeWhile isBlank
        if (← peek?).any isBreak then
          let breaks ← takeBreaks
          return folded breaks ++ (← quotedLoop quote n)
        else return blanks ++ (← quotedLoop quote n)
      else
        skip 1
        return c :: (← quotedLoop quote n)

def quotedScalar (quote : Char) : Read Node := do
  let loc ← here
  skip 1
  let text ← bounded (quotedLoop quote)
  let style := if quote = '"' then Style.doubleQuoted else Style.singleQuoted
  return .scalar loc style (String.ofList text)

/-! ## Block scalars -/

/-- What is done with the line ends after the last line of a block scalar. -/
inductive Chomping where
  | strip | clip | keep
  deriving DecidableEq, Repr

/-- The header of a block scalar: chomping, and the indentation if it is given. -/
def blockHeader : Nat → Chomping × Nat → Read (Chomping × Nat)
  | 0, header => return header
  | n + 1, (chomping, given) => do
    match ← peek? with
    | some '-' => do
      skip 1
      blockHeader n (.strip, given)
    | some '+' => do
      skip 1
      blockHeader n (.keep, given)
    | some c =>
      if '1' ≤ c && c ≤ '9' then do
        skip 1
        blockHeader n (chomping, c.toNat - 48)
      else return (chomping, given)
    | none => return (chomping, given)

/-- Leave out empty lines and the indentation of the line after them. `indent` is zero as long as
it is not known. Gives the ends of the empty lines and the widest indentation seen. -/
def blockBreaks (indent : Int) : Nat → List Char → Int → Read (List Char × Int)
  | 0, _, _ => malformed
  | n + 1, breaks, widest => fun c => do
    let spaces := c.rest.takeWhile (· = ' ')
    let width := if indent = 0 then spaces.length else min spaces.length indent.toNat
    let c' := c.drop width
    let widest' := max widest (width : Int)
    match c'.rest.head? with
    | some b =>
      if isBreak b then (blockBreaks indent n (breaks ++ [b]) widest').run c'.next
      else return ((breaks, widest'), c')
    | none => return ((breaks, widest'), c')

/-- The lines of a block scalar. `text` is what is read so far, `pending` the line end after it,
`breaks` the ends of the empty lines after that, and `wasBlank` tells that the last line started
with a blank. -/
def blockLines (fold : Bool) (indent : Int) :
    Nat → List Char → List Char → List Char → Bool → Read (List Char × List Char × List Char)
  | 0, _, _, _, _ => malformed
  | n + 1, text, pending, breaks, wasBlank => do
    let next ← peek?
    if next.isNone || (← column) ≠ indent then return (text, pending, breaks)
    let startsBlank := next.any isBlank
    let joint :=
      if fold && pending = ['\n'] && !wasBlank && !startsBlank then
        if breaks.isEmpty then [' '] else breaks
      else pending ++ breaks
    let line ← takeWhile (!isBreak ·)
    let text' := text ++ joint ++ line
    match ← peek? with
    | none => return (text', [], [])
    | some b =>
      skip 1
      let (breaks', _) ← bounded fun m => blockBreaks indent m [] 0
      blockLines fold indent n text' [b] breaks' startsBlank

/-- A block scalar inside a collection at column `parent`. -/
def blockScalar (parent : Int) (fold : Bool) : Read Node := do
  let loc ← here
  skip 1
  let (chomping, given) ← blockHeader 2 (.clip, 0)
  let _ ← takeWhile (!isBreak ·)
  skip 1
  let known : Int := if given = 0 then 0 else max parent 0 + given
  let (breaks, widest) ← bounded fun m => blockBreaks known m [] 0
  let indent := if known = 0 then max (max widest (parent + 1)) 1 else known
  let (text, pending, left) ←
    bounded fun m => blockLines fold indent m [] [] breaks false
  let ends := match chomping with
    | .strip => []
    | .clip => pending
    | .keep => pending ++ left
  let style := if fold then Style.folded else Style.literal
  return .scalar loc style (String.ofList (text ++ ends))

/-! ## Collections -/

/-- Readers for nested content. -/
structure Rules where
  /-- A node in a block collection at a column. -/
  block : Int → Read Node
  /-- A node in a flow collection. -/
  flow : Read Node

/-- The value after a key in a flow collection. -/
def flowValue (self : Rules) : Read (Option Node) := do
  skipToContent true
  if (← peek?) = some ':' then
    skip 1
    skipToContent true
    return some (← self.flow)
  else return none

/-- The items of a flow sequence. An item with a value is a mapping of one entry. -/
def flowItems (self : Rules) : Nat → Read (List Node)
  | 0 => malformed
  | n + 1 => do
    skipToContent true
    if (← peek?) = some ']' then
      skip 1
      return []
    let key ← self.flow
    let item := match ← flowValue self with
      | some value => Node.mapping key.loc [(key, value)]
      | none => key
    skipToContent true
    match ← peek? with
    | some ',' => do
      skip 1
      return item :: (← flowItems self n)
    | some ']' => do
      skip 1
      return [item]
    | _ => malformed

/-- The entries of a flow mapping. A key without a value has none. -/
def flowEntries (self : Rules) : Nat → Read (List (Node × Node))
  | 0 => malformed
  | n + 1 => do
    skipToContent true
    if (← peek?) = some '\x7d' then
      skip 1
      return []
    let key ← self.flow
    let value := (← flowValue self).getD (Node.absent key.loc)
    skipToContent true
    match ← peek? with
    | some ',' => do
      skip 1
      return (key, value) :: (← flowEntries self n)
    | some '\x7d' => do
      skip 1
      return [(key, value)]
    | _ => malformed

def flowCollection (self : Rules) : Read Node := do
  let loc ← here
  if (← peek?) = some '[' then
    skip 1
    return .sequence loc (← bounded (flowItems self))
  else
    skip 1
    return .mapping loc (← bounded (flowEntries self))

/-- A mark that starts something that is not read: a directive, an anchor, an alias, a tag, an
explicit key, or something that has no meaning yet. -/
def seesReserved : Read Bool := do
  if ← seesMark '?' then return true
  return (← peek?).any ("%&*!|>@`".toList.contains ·)

/-- A quoted scalar or a flow collection. -/
def markedNode? (self : Rules) : Read (Option Node) := do
  if ← seesReserved then malformed
  match ← peek? with
  | none => malformed
  | some c =>
    if c = '"' || c = '\'' then return some (← quotedScalar c)
    else if c = '[' || c = '\x7b' then return some (← flowCollection self)
    else return none

/-- A node in a flow collection. -/
def flowNode (self : Rules) : Read Node := do
  let loc ← here
  if let some node ← markedNode? self then return node
  let first ← plainLine true
  if first.isEmpty then return Node.absent loc
  let more ← bounded (plainMore true 0)
  return .scalar loc .plain (String.ofList (first ++ more))

/-- What can be the key of a block mapping: a node on one line. -/
def keyNode (self : Rules) : Read Node := do
  let loc ← here
  if let some node ← markedNode? self then return node
  if (← peek?).any isFlowMark then malformed
  return .scalar loc .plain (String.ofList (← plainLine false))

/-- The value of a key of the block mapping at column `col`, after the colon. -/
def blockValue (self : Rules) (col : Int) : Read Node := do
  let loc ← here
  if ← lineIsOver then
    skipToContent false
    let next ← column
    if (← peek?).isNone then return Node.absent loc
    else if next > col then self.block col
    else if next = col && (← seesMark '-') then self.block (col - 1)
    else return Node.absent loc
  else
    -- block collections start on lines of their own
    let start ← peek?
    match ← self.block col, start with
    | .sequence l items, some '[' => return .sequence l items
    | .mapping l entries, some '\x7b' => return .mapping l entries
    | .scalar l style text, _ => return .scalar l style text
    | _, _ => malformed

/-- Take the colon after a key. -/
def takeColon : Read Unit := do
  skipBlanks
  if ← seesMark ':' then skip 1 else malformed

/-- The entries of the block mapping at column `col` after its first. -/
def blockEntries (self : Rules) (col : Int) : Nat → Read (List (Node × Node))
  | 0 => malformed
  | n + 1 => do
    skipToContent false
    if (← peek?).isNone || (← column) ≠ col then return []
    let key ← keyNode self
    takeColon
    let value ← blockValue self col
    return (key, value) :: (← blockEntries self col n)

/-- The items of the block sequence at column `col`. -/
def blockItems (self : Rules) (col : Int) : Nat → Read (List Node)
  | 0 => malformed
  | n + 1 => do
    if (← column) = col && (← seesMark '-') then
      skip 1
      let loc ← here
      skipIndent false
      let bare ← lineIsOver
      if bare then skipToContent false
      let absent := bare && ((← peek?).isNone || (← column) ≤ col)
      let item ← if absent then pure (Node.absent loc) else self.block col
      skipToContent false
      return item :: (← blockItems self col n)
    else return []

/-- A node in a block collection at column `indent`. -/
def blockNode (self : Rules) (indent : Int) : Read Node := do
  let loc ← here
  let col ← column
  if ← seesMark '-' then return .sequence loc (← bounded (blockItems self col))
  if (← peek?) = some '|' then return ← blockScalar indent false
  if (← peek?) = some '>' then return ← blockScalar indent true
  let first ← keyNode self
  let afterFirst ← get
  skipBlanks
  if ← seesMark ':' then
    skip 1
    let value ← blockValue self col
    let more ← bounded (blockEntries self col)
    return .mapping loc ((first, value) :: more)
  set afterFirst
  match first with
  | .scalar _ .plain text =>
    let more ← bounded (plainMore false indent)
    return .scalar loc .plain (text ++ String.ofList more)
  | _ => return first

/-- The rules unrolled `n` times. -/
def rules : Nat → Rules
  | 0 => ⟨fun _ => malformed, malformed⟩
  | n + 1 => ⟨fun indent c => blockNode (rules n) indent c, fun c => flowNode (rules n) c⟩

/-! ## Documents -/

/-- A carriage return, a carriage return with a line feed and a next-line mark are one line feed
each. -/
def unifyBreaks : List Char → List Char
  | [] => []
  | '\r' :: '\n' :: rest => '\n' :: unifyBreaks rest
  | c :: rest =>
    (if c = '\r' || c = Char.ofNat 0x85 then '\n' else c) :: unifyBreaks rest

/-- The characters without the mark of the byte order at their front. -/
def withoutByteOrder : List Char → List Char
  | [] => []
  | c :: rest => if c = Char.ofNat 0xFEFF then rest else c :: rest

/-- The line starts with the marker of three characters `c`. -/
def isMarker (c : Char) (cs : List Char) : Bool :=
  cs.take 3 == [c, c, c] && endsWord (cs.drop 3).head?

/-- The characters of a document, up to a line that starts with a marker. -/
def documentPart (atLineStart : Bool) : List Char → List Char
  | [] => []
  | c :: rest =>
    if atLineStart && (isMarker '-' (c :: rest) || isMarker '.' (c :: rest)) then []
    else c :: documentPart (isBreak c) rest

/-- The marker that opens a document, if it has one. -/
def openingMarker : Read Bool := fun c =>
  if c.loc.column = 1 && isMarker '-' c.rest then .ok (true, c.drop 3) else .ok (false, c)

/-- The first document of a text, if it has one. -/
def document (depth : Nat) : Read (Option Node) := do
  skipIndent false
  skipToContent false
  let opened ← openingMarker
  modify fun c => { c with rest := documentPart (c.loc.column = 1) c.rest }
  skipToContent false
  let loc ← here
  if (← peek?).isNone then return if opened then some (Node.absent loc) else none
  let root ← (rules depth).block (-1)
  skipToContent false
  if (← peek?).isSome then malformed
  return some root

/-- The first document of a text, if it has one. -/
def parse (s : String) : Except Malformed (Option Node) :=
  let cs := unifyBreaks (withoutByteOrder s.toList)
  ((document (cs.length + 2)).run ⟨cs, Location.start⟩).map Prod.fst

end Componentry.Yaml
