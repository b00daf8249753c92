import Componentry.Location
import Componentry.Snippet.Literal
import Componentry.Text.Utf8

/-!
# Tokens

A snippet is read as a sequence of tokens: words, numbers, quoted texts and punctuation marks,
closed by one end mark. A token keeps the bytes it was read from and the location of the first of
them. Reserved words are ordinary words; the grammar tells them apart.
-/

namespace Componentry

/-- Punctuation marks. The mark `>=` is not among them: it is always read as `>` and `=`, so that
`A<B>=` closes its angle bracket. -/
inductive Punct where
  | lparen | rparen | lbrace | rbrace | lbracket | rbracket
  | comma | semicolon | colon | dot | question | atSign
  | bang | assign | equal | strictEqual | unequal | strictUnequal | arrow
  | less | greater | lessEqual
  | pipe | amp | or | and
  | plus | minus | star | slash | percent
  deriving DecidableEq, Repr, Inhabited

def Punct.spelling : Punct → String
  | .lparen => "(" | .rparen => ")"
  | .lbrace => "\x7b" | .rbrace => "\x7d"
  | .lbracket => "[" | .rbracket => "]"
  | .comma => "," | .semicolon => ";" | .colon => ":" | .dot => "."
  | .question => "?" | .atSign => "@"
  | .bang => "!" | .assign => "=" | .equal => "==" | .strictEqual => "==="
  | .unequal => "!=" | .strictUnequal => "!==" | .arrow => "=>"
  | .less => "<" | .greater => ">" | .lessEqual => "<="
  | .pipe => "|" | .amp => "&" | .or => "||" | .and => "&&"
  | .plus => "+" | .minus => "-" | .star => "*" | .slash => "/" | .percent => "%"

inductive TokenKind where
  | word (name : String)
  | number (value : Binary64)
  | quoted (value : String)
  | punct (mark : Punct)
  | done
  deriving DecidableEq, Repr, Inhabited

namespace TokenKind

/-- The name of the token's class; a mark is its own name. -/
def className : TokenKind → String
  | .word _ => "IDENTIFIER"
  | .number _ => "NUMBER"
  | .quoted _ => "STRING"
  | .punct m => m.spelling
  | .done => "EOF"

/-- The value that a number or a quoted text stands for. -/
def literal? : TokenKind → Option Literal
  | .number v => some (.number v)
  | .quoted s => some (.text s)
  | _ => none

end TokenKind

/-- A token with its bytes and the location of the first of them. -/
structure Token where
  kind : TokenKind
  lexeme : Bytes
  loc : Location
  deriving DecidableEq, Repr, Inhabited

namespace Token

/-- The lexeme as it is shown. -/
def shown (t : Token) : String := Text.decode t.lexeme

/-- One line about a token: class, lexeme, value if any, location. -/
def describe (t : Token) : String :=
  let value := match t.kind.literal? with
    | some v => " (" ++ v.display ++ ")"
    | none => ""
  t.kind.className ++ " '" ++ t.shown ++ "'" ++ value ++ " at " ++ t.loc.text

/-- The token is the word `w`. -/
def isWord (t : Token) (w : String) : Bool := t.kind == .word w

/-- The token is the mark `p`. -/
def isPunct (t : Token) (p : Punct) : Bool := t.kind == .punct p

/-- The token in the document in which its snippet starts at `base`. -/
def within (base : Location) (t : Token) : Token := { t with loc := base.within t.loc }

end Token

end Componentry
