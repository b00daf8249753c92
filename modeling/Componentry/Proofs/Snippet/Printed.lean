import Componentry.Proofs.Outcome
import Componentry.Snippet.Grammar
import Componentry.Snippet.Print

/-!
# Printed trees as tokens

A printed text is a sequence of chunks: blanks, and the texts of single tokens. `Expr.chunks` gives
the chunks of an expression, `Expr.kinds` what their tokens are. The printed text is the text of the
chunks (`Expr.print_toList`), so all that is said about reading a printed tree back is said about
its chunks; the scanner is concerned with how they stand side by side, the grammar with their kinds
alone.

The kind of a quoted text is what the quoted form is read as. That need not be the text itself: the
escapes by number that quoting writes are not among those that reading knows (`Text.reread`).
-/

namespace Componentry

open Number List

/-! ## Quoted texts -/

namespace Text

/-- The characters that are read where the quoted form of a text writes `c`. -/
def rereadChar (c : Char) : List Char :=
  if isPrintable c || c = '\t' || c = '\n' || c = '\r' then [c] else quoteChar c

/-- The text that is read where the quoted form of `s` stands. -/
def reread (s : String) : String := String.ofList (s.toList.flatMap rereadChar)

end Text

/-! ## Chunks -/

/-- A part of a printed text: a blank, or the text of a token. -/
inductive Chunk where
  | blank
  | token (kind : TokenKind) (text : List Char)

namespace Chunk

/-- The token of a chunk. -/
def kind? : Chunk → Option TokenKind
  | .blank => none
  | .token kind _ => some kind

/-- The characters of a chunk. -/
def chars : Chunk → List Char
  | .blank => [' ']
  | .token _ text => text

/-- A word. -/
def word (w : String) : Chunk := .token (.word w) w.toList

/-- A punctuation mark. -/
def mark (p : Punct) : Chunk := .token (.punct p) p.spelling.toList

/-- A quoted text. -/
def quoted (s : String) : Chunk := .token (.quoted (Text.reread s)) (Text.quote s).toList

/-- A key: a name plainly, any other text quoted. -/
def key (s : String) : Chunk := if Text.isIdentifier s then word s else quoted s

/-- A number without its sign. -/
def number (v : Binary64) : Chunk := .token (.number v) (Layout.source.text v).toList

end Chunk

/-- The kinds of the tokens of chunks. -/
def kindsOf (cs : List Chunk) : List TokenKind := cs.filterMap Chunk.kind?

/-- The text of chunks. -/
def charsOf (cs : List Chunk) : List Char := cs.flatMap Chunk.chars

/-- Chunks in parentheses, if asked for. -/
def grouped (wrap : Bool) (cs : List Chunk) : List Chunk :=
  if wrap then Chunk.mark .lparen :: cs ++ [Chunk.mark .rparen] else cs

/-- The words of a dotted name. -/
def nameWords (name : String) : List String := (name.toList.splitOn '.').map String.ofList

/-- A dotted name. -/
def nameChunks (name : String) : List Chunk :=
  [Chunk.mark .dot].intercalate ((nameWords name).map fun w => [Chunk.word w])

/-- A literal. A negative number is written with a mark of its own. -/
def Literal.chunks : Literal → List Chunk
  | .null => [.word "null"]
  | .text s => [.quoted s]
  | .number (.finite true m q) => [.mark .minus, .number (.finite false m q)]
  | .number v => [.number v]
  | .bool b => [.word (if b then "true" else "false")]
  | .list items => [.token (.word "") (Literal.list items).display.toList]

/-- The marks of an operator. -/
def BinaryOp.puncts : BinaryOp → List Punct
  | .or => [.or] | .and => [.and]
  | .equal => [.equal] | .unequal => [.unequal]
  | .strictEqual => [.strictEqual] | .strictUnequal => [.strictUnequal]
  | .less => [.less] | .greater => [.greater]
  | .lessEqual => [.lessEqual] | .greaterEqual => [.greater, .assign]
  | .add => [.plus] | .sub => [.minus]
  | .mul => [.star] | .div => [.slash] | .mod => [.percent]

/-- An operator before its operand. -/
def UnaryOp.chunks : UnaryOp → List Chunk
  | .not => [.mark .bang]
  | .minus => [.mark .minus]
  | .typeOf => [.word "typeof", .blank]

/-- What a declaration statement binds. -/
def Binding.chunks : Binding → List Chunk
  | .name n => [.word n]
  | .elements ns =>
    .mark .lbracket ::
      [Chunk.mark .comma, .blank].intercalate (ns.map fun n => [Chunk.word n]) ++ [.mark .rbracket]

/-- The access word of a parameter. -/
def Modifier.chunks : Option Modifier → List Chunk
  | none => []
  | some m => [.word m.spelling, .blank]

/-- The mark of what may be left out. -/
def optionalChunks (optional : Bool) : List Chunk := if optional then [.mark .question] else []

mutual

/-- The chunks of an expression. -/
def Expr.chunks : Expr → List Chunk
  | .literal _ v => v.chunks
  | .name _ n => [.word n]
  | .self _ => [.word "this"]
  | .parent _ => [.word "super"]
  | .member _ object property => object.chunks ++ [.mark .dot, .word property]
  | .index _ object key => object.chunks ++ .mark .lbracket :: key.chunks ++ [.mark .rbracket]
  | .call _ callee args =>
    grouped callee.isArrow callee.chunks ++ .mark .lparen :: Expr.chunksAll args ++ [.mark .rparen]
  | .create _ callee args =>
    .word "new" :: .blank :: callee.chunks ++ .mark .lparen :: Expr.chunksAll args ++
      [.mark .rparen]
  | .array _ elements => .mark .lbracket :: Expr.chunksAll elements ++ [.mark .rbracket]
  | .object _ [] => [.mark .lbrace, .mark .rbrace]
  | .object _ (p :: ps) =>
    .mark .lbrace :: .blank :: Property.chunksAll (p :: ps) ++ [.blank, .mark .rbrace]
  | .arrow _ params body =>
    .mark .lparen :: Param.chunksAll params ++
      [.mark .rparen, .blank, .mark .arrow, .blank] ++ body.chunks
  | .binary _ op left right =>
    grouped left.isCompound left.chunks ++ .blank :: op.puncts.map .mark ++ .blank ::
      grouped right.isCompound right.chunks
  | .unary _ op operand => op.chunks ++ grouped operand.isCompound operand.chunks
  | .assign _ target value => target.chunks ++ [.blank, .mark .assign, .blank] ++ value.chunks

def Expr.chunksAll : List Expr → List Chunk
  | [] => []
  | [e] => e.chunks
  | e :: f :: es => e.chunks ++ [.mark .comma, .blank] ++ Expr.chunksAll (f :: es)

def Property.chunks : Property → List Chunk
  | .mk _ key value => [.key key, .mark .colon, .blank] ++ value.chunks

def Property.chunksAll : List Property → List Chunk
  | [] => []
  | [p] => p.chunks
  | p :: q :: ps => p.chunks ++ [.mark .comma, .blank] ++ Property.chunksAll (q :: ps)

def ArrowBody.chunks : ArrowBody → List Chunk
  | .value e => grouped e.isObject e.chunks
  | .block [] => [.mark .lbrace, .mark .rbrace]
  | .block (s :: ss) => .mark .lbrace :: .blank :: Stmt.chunksAll (s :: ss) ++ [.mark .rbrace]

def Stmt.chunks : Stmt → List Chunk
  | .run _ e => e.chunks ++ [.mark .semicolon]
  | .bind _ kind binding type value =>
    [.word kind.keyword, .blank] ++ binding.chunks ++ TypeExpr.chunksSuffix type ++
      Expr.chunksInit value ++ [.mark .semicolon]
  | .yield _ none => [.word "return", .mark .semicolon]
  | .yield _ (some e) => [.word "return", .blank] ++ e.chunks ++ [.mark .semicolon]
  | .block _ [] => [.mark .lbrace, .mark .rbrace]
  | .block _ (s :: ss) => .mark .lbrace :: .blank :: Stmt.chunksAll (s :: ss) ++ [.mark .rbrace]

def Stmt.chunksAll : List Stmt → List Chunk
  | [] => []
  | s :: ss => s.chunks ++ .blank :: Stmt.chunksAll ss

def Expr.chunksInit : Option Expr → List Chunk
  | none => []
  | some e => [.blank, .mark .assign, .blank] ++ e.chunks

/-- The chunks of a type annotation. -/
def TypeExpr.chunks : TypeExpr → List Chunk
  | .reference _ name [] => nameChunks name
  | .reference _ name (a :: as) =>
    nameChunks name ++ .mark .less :: TypeExpr.chunksAll [.mark .comma, .blank] (a :: as) ++
      [.mark .greater]
  | .literal _ v => v.chunks
  | .union _ members => TypeExpr.chunksAll [.blank, .mark .pipe, .blank] members
  | .intersection _ members => TypeExpr.chunksAll [.blank, .mark .amp, .blank] members
  | .array _ element =>
    grouped element.isCompound element.chunks ++ [.mark .lbracket, .mark .rbracket]
  | .tuple _ elements =>
    .mark .lbracket :: TypeExpr.chunksAll [.mark .comma, .blank] elements ++ [.mark .rbracket]
  | .object _ [] => [.mark .lbrace, .mark .rbrace]
  | .object _ (p :: ps) =>
    .mark .lbrace :: .blank :: PropertyType.chunksAll (p :: ps) ++ [.blank, .mark .rbrace]
  | .query _ subject => [.word "typeof", .blank] ++ subject.chunks
  | .function _ params none =>
    .mark .lparen :: Param.chunksAll params ++
      [.mark .rparen, .blank, .mark .arrow, .blank, .word "void"]
  | .function _ params (some result) =>
    .mark .lparen :: Param.chunksAll params ++
      [.mark .rparen, .blank, .mark .arrow, .blank] ++ result.chunks
  | .conditional _ tested bound whenTrue whenFalse =>
    tested.chunks ++ [.blank, .word "extends", .blank] ++ bound.chunks ++
      [.blank, .mark .question, .blank] ++ whenTrue.chunks ++
      [.blank, .mark .colon, .blank] ++ whenFalse.chunks

def TypeExpr.chunksAll (sep : List Chunk) : List TypeExpr → List Chunk
  | [] => []
  | [t] => t.chunks
  | t :: u :: ts => t.chunks ++ sep ++ TypeExpr.chunksAll sep (u :: ts)

def TypeExpr.chunksSuffix : Option TypeExpr → List Chunk
  | none => []
  | some t => [.mark .colon, .blank] ++ t.chunks

def PropertyType.chunks : PropertyType → List Chunk
  | .mk name optional type =>
    .key name :: optionalChunks optional ++ [.mark .colon, .blank] ++ type.chunks

def PropertyType.chunksAll : List PropertyType → List Chunk
  | [] => []
  | [p] => p.chunks
  | p :: q :: ps => p.chunks ++ [.mark .semicolon, .blank] ++ PropertyType.chunksAll (q :: ps)

def Param.chunks : Param → List Chunk
  | .mk _ modifier name optional type =>
    Modifier.chunks modifier ++ .word name :: optionalChunks optional ++
      TypeExpr.chunksSuffix type

def Param.chunksAll : List Param → List Chunk
  | [] => []
  | [p] => p.chunks
  | p :: q :: ps => p.chunks ++ [.mark .comma, .blank] ++ Param.chunksAll (q :: ps)

end

/-! ## The printed text -/

@[simp] theorem charsOf_nil : charsOf [] = [] := rfl
@[simp] theorem charsOf_cons (c : Chunk) (cs : List Chunk) : charsOf (c :: cs) = c.chars ++
    charsOf cs := rfl
@[simp] theorem charsOf_append (cs ds : List Chunk) : charsOf (cs ++ ds) = charsOf cs ++
    charsOf ds :=
  flatMap_append

@[simp] theorem Chunk.chars_blank : Chunk.blank.chars = [' '] := rfl
@[simp] theorem Chunk.chars_word (w : String) : (Chunk.word w).chars = w.toList := rfl
@[simp] theorem Chunk.chars_mark (p : Punct) : (Chunk.mark p).chars = p.spelling.toList := rfl
@[simp] theorem Chunk.chars_quoted (s : String) : (Chunk.quoted s).chars =
    (Text.quote s).toList := rfl
@[simp] theorem Chunk.chars_number (v : Binary64) :
    (Chunk.number v).chars = (Layout.source.text v).toList := rfl

@[simp] theorem Chunk.chars_key (k : String) : (Chunk.key k).chars = (Text.keyText k).toList := by
  unfold Chunk.key Text.keyText
  split <;> rfl

theorem parenthesized_toList {s : String} {cs : List Chunk} (w : Bool) (h : s.toList = charsOf cs) :
    (parenthesized w s).toList = charsOf (grouped w cs) := by
  cases w with
  | false => exact h
  | true => simp [parenthesized, grouped, h, Punct.spelling]

theorem Literal.source_toList (v : Literal) : v.source.toList = charsOf v.chunks := by
  cases v with
  | number x =>
    cases x with
    | finite s m q => cases s <;> simp [Literal.source, Literal.chunks, Layout.text, Punct.spelling]
    | _ => simp [Literal.source, Literal.chunks]
  | bool b => cases b <;> simp [Literal.source, Literal.chunks]
  | list items => simp [Literal.source, Literal.chunks, Chunk.chars]
  | _ => simp [Literal.source, Literal.chunks]

theorem charsOf_intercalate (sep : List Chunk) (cs : List (List Chunk)) :
   charsOf (sep.intercalate cs) = (charsOf sep).intercalate (cs.map charsOf) := by
  induction cs with
  | nil => rfl
  | cons c cs ih =>
    cases cs with
    | nil => simp
    | cons d ds => simpa [intercalate_cons_cons] using ih

theorem nameWords_ne_nil (name : String) : nameWords name ≠ [] := by
  unfold nameWords
  simp

theorem nameChunks_toList (name : String) : charsOf (nameChunks name) = name.toList := by
  have hparts : (nameWords name).map (fun w => charsOf [Chunk.word w]) =
    name.toList.splitOn '.' := by
    unfold nameWords
    rw [map_map]
    conv_rhs => rw [← map_id (name.toList.splitOn '.')]
    apply map_congr_left
    intro part _
    simp
  have hdot : charsOf [Chunk.mark .dot] = ['.'] := by simp [Punct.spelling]
  unfold nameChunks
  rw [charsOf_intercalate, map_map, hdot]
  exact (congrArg _ hparts).trans (intercalate_splitOn '.')

theorem BinaryOp.spelling_toList (op : BinaryOp) : op.spelling.toList =
    charsOf (op.puncts.map .mark) := by
  cases op <;> simp [BinaryOp.spelling, BinaryOp.puncts, Punct.spelling]

theorem Binding.print_toList (b : Binding) : b.print.toList = charsOf b.chunks := by
  cases b with
  | name n => simp [Binding.print, Binding.chunks]
  | elements ns =>
    simp [Binding.print, Binding.chunks, charsOf_intercalate, String.toList_intercalate,
      Punct.spelling, Function.comp_def]

section

-- the text and the chunks of a tree are written out in step
attribute [local simp] Punct.spelling Expr.print Expr.chunks Expr.printAll Expr.chunksAll
  Property.print Property.chunks Property.printAll Property.chunksAll ArrowBody.print
  ArrowBody.chunks Stmt.print Stmt.chunks Expr.printInit Expr.chunksInit TypeExpr.print
  TypeExpr.chunks TypeExpr.printAll TypeExpr.chunksAll TypeExpr.printSuffix TypeExpr.chunksSuffix
  PropertyType.print PropertyType.chunks PropertyType.printAll PropertyType.chunksAll Param.print
  Param.chunks Param.printAll Param.chunksAll UnaryOp.spelling UnaryOp.chunks optionalChunks
  Modifier.chunks nameChunks_toList BinaryOp.spelling_toList

mutual

theorem Expr.print_toList : ∀ e : Expr, e.print.toList = charsOf e.chunks
  | .literal _ v => v.source_toList
  | .name _ n | .self _ | .parent _ => by simp
  | .member _ o p => by simp [Expr.print_toList o]
  | .index _ o k => by simp [Expr.print_toList o, Expr.print_toList k]
  | .call _ c args => by
    simp [parenthesized_toList _ (Expr.print_toList c), Expr.printAll_toList args]
  | .create _ c args => by simp [Expr.print_toList c, Expr.printAll_toList args]
  | .array _ es => by simp [Expr.printAll_toList es]
  | .object _ [] => by simp
  | .object _ (p :: ps) => by simp [Property.printAll_toList (p :: ps)]
  | .arrow _ ps b => by simp [Param.printAll_toList ps, ArrowBody.print_toList b]
  | .binary _ op l r => by
    simp [parenthesized_toList _ (Expr.print_toList l),
      parenthesized_toList _ (Expr.print_toList r)]
  | .unary _ op x => by
    cases op <;> simp [parenthesized_toList _ (Expr.print_toList x)]
  | .assign _ t v => by simp [Expr.print_toList t, Expr.print_toList v]

theorem Expr.printAll_toList : ∀ es : List Expr, (Expr.printAll es).toList =
    charsOf (Expr.chunksAll es)
  | [] => by simp
  | [e] => by simp [Expr.print_toList e]
  | e :: f :: es => by simp [Expr.print_toList e, Expr.printAll_toList (f :: es)]

theorem Property.print_toList : ∀ p : Property, p.print.toList = charsOf p.chunks
  | .mk _ k v => by simp [Expr.print_toList v]

theorem Property.printAll_toList : ∀ ps : List Property,
    (Property.printAll ps).toList = charsOf (Property.chunksAll ps)
  | [] => by simp
  | [p] => by simp [Property.print_toList p]
  | p :: q :: ps => by simp [Property.print_toList p, Property.printAll_toList (q :: ps)]

theorem ArrowBody.print_toList : ∀ b : ArrowBody, b.print.toList = charsOf b.chunks
  | .value e => parenthesized_toList _ (Expr.print_toList e)
  | .block [] => by simp
  | .block (s :: ss) => by simp [Stmt.printAll_toList (s :: ss)]

theorem Stmt.print_toList : ∀ s : Stmt, s.print.toList = charsOf s.chunks
  | .run _ e => by simp [Expr.print_toList e]
  | .bind _ kind binding type value => by
    simp [Binding.print_toList, TypeExpr.printSuffix_toList type, Expr.printInit_toList value]
  | .yield _ none => by simp
  | .yield _ (some e) => by simp [Expr.print_toList e]
  | .block _ [] => by simp
  | .block _ (s :: ss) => by simp [Stmt.printAll_toList (s :: ss)]

theorem Stmt.printAll_toList : ∀ ss : List Stmt, (Stmt.printAll ss).toList =
    charsOf (Stmt.chunksAll ss)
  | [] => by simp [Stmt.printAll, Stmt.chunksAll]
  | s :: ss => by
    simp [Stmt.printAll, Stmt.chunksAll, Stmt.print_toList s, Stmt.printAll_toList ss]

theorem Expr.printInit_toList : ∀ v : Option Expr, (Expr.printInit v).toList =
    charsOf (Expr.chunksInit v)
  | none => by simp
  | some e => by simp [Expr.print_toList e]

theorem TypeExpr.print_toList : ∀ t : TypeExpr, t.print.toList = charsOf t.chunks
  | .reference _ name [] => by simp
  | .reference _ name (a :: as) => by
    have h := TypeExpr.printAll_toList ", " [.mark .comma, .blank] (by simp) (a :: as)
    simp [h]
  | .literal _ v => v.source_toList
  | .union _ ms =>
    TypeExpr.printAll_toList " | " [.blank, .mark .pipe, .blank] (by simp) ms
  | .intersection _ ms =>
    TypeExpr.printAll_toList " & " [.blank, .mark .amp, .blank] (by simp) ms
  | .array _ t => by simp [parenthesized_toList _ (TypeExpr.print_toList t)]
  | .tuple _ ts => by
    have h := TypeExpr.printAll_toList ", " [.mark .comma, .blank] (by simp) ts
    simp [h]
  | .object _ [] => by simp
  | .object _ (p :: ps) => by simp [PropertyType.printAll_toList (p :: ps)]
  | .query _ e => by simp [Expr.print_toList e]
  | .function _ ps none => by simp [Param.printAll_toList ps]
  | .function _ ps (some r) => by simp [Param.printAll_toList ps, TypeExpr.print_toList r]
  | .conditional _ a b c d => by
    simp [TypeExpr.print_toList a, TypeExpr.print_toList b, TypeExpr.print_toList c,
      TypeExpr.print_toList d]

theorem TypeExpr.printAll_toList (sep : String) (cs : List Chunk) (h : sep.toList = charsOf cs) :
    ∀ ts : List TypeExpr, (TypeExpr.printAll sep ts).toList = charsOf (TypeExpr.chunksAll cs ts)
  | [] => by simp
  | [t] => by simp [TypeExpr.print_toList t]
  | t :: u :: ts => by
    simp [TypeExpr.print_toList t, h, TypeExpr.printAll_toList sep cs h (u :: ts)]

theorem TypeExpr.printSuffix_toList : ∀ t : Option TypeExpr,
    (TypeExpr.printSuffix t).toList = charsOf (TypeExpr.chunksSuffix t)
  | none => by simp
  | some t => by simp [TypeExpr.print_toList t]

theorem PropertyType.print_toList : ∀ p : PropertyType, p.print.toList = charsOf p.chunks
  | .mk name optional type => by
    cases optional <;>
      simp [TypeExpr.print_toList type]

theorem PropertyType.printAll_toList : ∀ ps : List PropertyType,
    (PropertyType.printAll ps).toList = charsOf (PropertyType.chunksAll ps)
  | [] => by simp
  | [p] => by simp [PropertyType.print_toList p]
  | p :: q :: ps => by simp [PropertyType.print_toList p, PropertyType.printAll_toList (q :: ps)]

theorem Param.print_toList : ∀ p : Param, p.print.toList = charsOf p.chunks
  | .mk _ modifier name optional type => by
    cases modifier <;> cases optional <;>
      simp [TypeExpr.printSuffix_toList type]

theorem Param.printAll_toList : ∀ ps : List Param,
    (Param.printAll ps).toList = charsOf (Param.chunksAll ps)
  | [] => by simp
  | [p] => by simp [Param.print_toList p]
  | p :: q :: ps => by simp [Param.print_toList p, Param.printAll_toList (q :: ps)]

end

end

/-! ## The kinds of printed tokens -/

@[simp] theorem kindsOf_nil : kindsOf [] = [] := rfl

@[simp] theorem kindsOf_append (cs ds : List Chunk) :
    kindsOf (cs ++ ds) = kindsOf cs ++ kindsOf ds :=
  filterMap_append

@[simp] theorem kindsOf_blank (cs : List Chunk) : kindsOf (.blank :: cs) = kindsOf cs := rfl

@[simp] theorem kindsOf_word (w : String) (cs : List Chunk) :
    kindsOf (.word w :: cs) = .word w :: kindsOf cs := rfl

@[simp] theorem kindsOf_mark (p : Punct) (cs : List Chunk) :
    kindsOf (.mark p :: cs) = .punct p :: kindsOf cs := rfl

@[simp] theorem kindsOf_number (v : Binary64) (cs : List Chunk) :
    kindsOf (.number v :: cs) = .number v :: kindsOf cs := rfl

@[simp] theorem kindsOf_quoted (s : String) (cs : List Chunk) :
    kindsOf (.quoted s :: cs) = .quoted (Text.reread s) :: kindsOf cs := rfl

/-- The token that a key is printed as. -/
def keyKind (s : String) : TokenKind :=
  if Text.isIdentifier s then .word s else .quoted (Text.reread s)

@[simp] theorem kindsOf_key (s : String) (cs : List Chunk) :
    kindsOf (.key s :: cs) = keyKind s :: kindsOf cs := by
  unfold Chunk.key keyKind
  split <;> rfl

@[simp] theorem kindsOf_marks (ps : List Punct) : kindsOf (ps.map .mark) = ps.map .punct := by
  induction ps with
  | nil => rfl
  | cons p ps ih => rw [map_cons, kindsOf_mark, ih, map_cons]

/-- Tokens in parentheses, if asked for. -/
def groupedKinds (wrap : Bool) (ks : List TokenKind) : List TokenKind :=
  if wrap then .punct .lparen :: ks ++ [.punct .rparen] else ks

@[simp] theorem kindsOf_grouped (wrap : Bool) (cs : List Chunk) :
    kindsOf (grouped wrap cs) = groupedKinds wrap (kindsOf cs) := by
  cases wrap <;> simp [grouped, groupedKinds]

theorem kindsOf_intercalate (sep : List Chunk) (cs : List (List Chunk)) :
    kindsOf (sep.intercalate cs) = (kindsOf sep).intercalate (cs.map kindsOf) := by
  induction cs with
  | nil => rfl
  | cons c cs ih =>
    cases cs with
    | nil => simp
    | cons d ds => simpa [intercalate_cons_cons] using ih

/-- The tokens of an expression. -/
def Expr.kinds (e : Expr) : List TokenKind := kindsOf e.chunks

def Property.kinds (p : Property) : List TokenKind := kindsOf p.chunks

def ArrowBody.kinds (b : ArrowBody) : List TokenKind := kindsOf b.chunks

def Stmt.kinds (s : Stmt) : List TokenKind := kindsOf s.chunks

/-- The tokens of a type annotation. -/
def TypeExpr.kinds (t : TypeExpr) : List TokenKind := kindsOf t.chunks

def PropertyType.kinds (p : PropertyType) : List TokenKind := kindsOf p.chunks

def Param.kinds (p : Param) : List TokenKind := kindsOf p.chunks

attribute [local simp] Expr.kinds Expr.chunks Property.kinds Property.chunks ArrowBody.kinds
  ArrowBody.chunks Stmt.kinds Stmt.chunks TypeExpr.kinds TypeExpr.chunks PropertyType.kinds
  PropertyType.chunks Param.kinds Param.chunks

/-- Tokens with a mark between them. -/
def separated (sep : Punct) (ks : List (List TokenKind)) : List TokenKind :=
  [TokenKind.punct sep].intercalate ks

@[simp] theorem separated_nil (sep : Punct) : separated sep [] = [] := rfl

@[simp] theorem separated_singleton (sep : Punct) (ks : List TokenKind) :
    separated sep [ks] = ks := intercalate_singleton

@[simp] theorem separated_cons_cons (sep : Punct) (ks ls : List TokenKind)
    (more : List (List TokenKind)) :
    separated sep (ks :: ls :: more) = ks ++ .punct sep :: separated sep (ls :: more) := by
  simp [separated, intercalate_cons_cons]

@[simp] theorem Expr.kindsOf_chunksAll : ∀ es : List Expr,
    kindsOf (Expr.chunksAll es) = separated .comma (es.map Expr.kinds)
  | [] => rfl
  | [e] => by simp [Expr.chunksAll]
  | e :: f :: es => by
    rw [Expr.chunksAll, kindsOf_append, Expr.kindsOf_chunksAll (f :: es)]
    simp

@[simp] theorem Property.kindsOf_chunksAll : ∀ ps : List Property,
    kindsOf (Property.chunksAll ps) = separated .comma (ps.map Property.kinds)
  | [] => rfl
  | [p] => by simp [Property.chunksAll]
  | p :: q :: ps => by
    rw [Property.chunksAll, kindsOf_append, Property.kindsOf_chunksAll (q :: ps)]
    simp

@[simp] theorem Param.kindsOf_chunksAll : ∀ ps : List Param,
    kindsOf (Param.chunksAll ps) = separated .comma (ps.map Param.kinds)
  | [] => rfl
  | [p] => by simp [Param.chunksAll]
  | p :: q :: ps => by
    rw [Param.chunksAll, kindsOf_append, Param.kindsOf_chunksAll (q :: ps)]
    simp

@[simp] theorem PropertyType.kindsOf_chunksAll : ∀ ps : List PropertyType,
    kindsOf (PropertyType.chunksAll ps) = separated .semicolon (ps.map PropertyType.kinds)
  | [] => rfl
  | [p] => by simp [PropertyType.chunksAll]
  | p :: q :: ps => by
    rw [PropertyType.chunksAll, kindsOf_append, PropertyType.kindsOf_chunksAll (q :: ps)]
    simp

theorem TypeExpr.kindsOf_chunksAll (sep : List Chunk) {p : Punct} (h : kindsOf sep = [.punct p]) :
    ∀ ts : List TypeExpr, kindsOf (TypeExpr.chunksAll sep ts) = separated p (ts.map TypeExpr.kinds)
  | [] => rfl
  | [t] => by simp [TypeExpr.chunksAll]
  | t :: u :: ts => by
    rw [TypeExpr.chunksAll, kindsOf_append, TypeExpr.kindsOf_chunksAll sep h (u :: ts)]
    simp [h]

@[simp] theorem Stmt.kindsOf_chunksAll (ss : List Stmt) :
    kindsOf (Stmt.chunksAll ss) = ss.flatMap Stmt.kinds := by
  induction ss with
  | nil => rfl
  | cons s ss ih => simp [Stmt.chunksAll, ih]

/-- The tokens of a literal. -/
def Literal.kinds (v : Literal) : List TokenKind := kindsOf v.chunks

/-- The tokens of a dotted name. -/
def nameKinds (name : String) : List TokenKind :=
  separated .dot ((nameWords name).map fun w => [.word w])

@[simp] theorem kindsOf_nameChunks (name : String) :
    kindsOf (nameChunks name) = nameKinds name := by
  simp [nameChunks, nameKinds, separated, kindsOf_intercalate, Function.comp_def]

/-- The tokens of an operator before its operand. -/
def UnaryOp.kind : UnaryOp → TokenKind
  | .not => .punct .bang
  | .minus => .punct .minus
  | .typeOf => .word "typeof"

@[simp] theorem UnaryOp.kindsOf_chunks (op : UnaryOp) : kindsOf op.chunks = [op.kind] := by
  cases op <;> rfl

/-- The tokens of what may be left out. -/
def optionalKinds (optional : Bool) : List TokenKind :=
  if optional then [.punct .question] else []

@[simp] theorem kindsOf_optionalChunks (optional : Bool) :
    kindsOf (optionalChunks optional) = optionalKinds optional := by
  cases optional <;> rfl

/-- The tokens of what a declaration statement binds. -/
def Binding.kinds : Binding → List TokenKind
  | .name n => [.word n]
  | .elements ns =>
    .punct .lbracket :: separated .comma (ns.map fun n => [.word n]) ++ [.punct .rbracket]

@[simp] theorem Binding.kindsOf_chunks (b : Binding) : kindsOf b.chunks = b.kinds := by
  cases b with
  | name n => rfl
  | elements ns =>
    simp [Binding.chunks, Binding.kinds, separated, kindsOf_intercalate, Function.comp_def]

/-- The tokens of a declared type. -/
def TypeExpr.suffixKinds : Option TypeExpr → List TokenKind
  | none => []
  | some t => .punct .colon :: t.kinds

@[simp] theorem TypeExpr.kindsOf_chunksSuffix (t : Option TypeExpr) :
    kindsOf (TypeExpr.chunksSuffix t) = TypeExpr.suffixKinds t := by
  cases t with
  | none => rfl
  | some t => simp [TypeExpr.chunksSuffix, TypeExpr.suffixKinds]

/-- The tokens of an initial value. -/
def Expr.initKinds : Option Expr → List TokenKind
  | none => []
  | some e => .punct .assign :: e.kinds

@[simp] theorem Expr.kindsOf_chunksInit (v : Option Expr) :
    kindsOf (Expr.chunksInit v) = Expr.initKinds v := by
  cases v with
  | none => rfl
  | some e => simp [Expr.chunksInit, Expr.initKinds]

/-- The tokens of an access word. -/
def Modifier.kinds : Option Modifier → List TokenKind
  | none => []
  | some m => [.word m.spelling]

@[simp] theorem Modifier.kindsOf_chunks (m : Option Modifier) :
    kindsOf (Modifier.chunks m) = Modifier.kinds m := by
  cases m <;> rfl

namespace Expr

variable (loc : Location)

@[simp] theorem kinds_literal (v : Literal) : (literal loc v).kinds = v.kinds := by
  rw [Expr.kinds, Expr.chunks, Literal.kinds]

@[simp] theorem kinds_name (n : String) : (name loc n).kinds = [.word n] := by
  simp

@[simp] theorem kinds_self : (self loc).kinds = [.word "this"] := by
  simp

@[simp] theorem kinds_parent : (parent loc).kinds = [.word "super"] := by
  simp

@[simp] theorem kinds_member (o : Expr) (p : String) :
    (member loc o p).kinds = o.kinds ++ [.punct .dot, .word p] := by
  simp

@[simp] theorem kinds_index (o k : Expr) :
    (index loc o k).kinds = o.kinds ++ .punct .lbracket :: k.kinds ++ [.punct .rbracket] := by
  simp

@[simp] theorem kinds_call (c : Expr) (args : List Expr) :
    (call loc c args).kinds = groupedKinds c.isArrow c.kinds ++
      .punct .lparen :: separated .comma (args.map kinds) ++ [.punct .rparen] := by
  simp

@[simp] theorem kinds_create (c : Expr) (args : List Expr) :
    (create loc c args).kinds = .word "new" :: c.kinds ++
      .punct .lparen :: separated .comma (args.map kinds) ++ [.punct .rparen] := by
  simp

@[simp] theorem kinds_array (es : List Expr) :
    (array loc es).kinds =
      .punct .lbracket :: separated .comma (es.map kinds) ++ [.punct .rbracket] := by
  simp

@[simp] theorem kinds_object (ps : List Property) :
    (object loc ps).kinds =
      .punct .lbrace :: separated .comma (ps.map Property.kinds) ++ [.punct .rbrace] := by
  cases ps with
  | nil | cons p ps => simp

@[simp] theorem kinds_arrow (ps : List Param) (b : ArrowBody) :
    (arrow loc ps b).kinds = .punct .lparen :: separated .comma (ps.map Param.kinds) ++
      .punct .rparen :: .punct .arrow :: b.kinds := by
  simp

@[simp] theorem kinds_binary (op : BinaryOp) (l r : Expr) :
    (binary loc op l r).kinds = groupedKinds l.isCompound l.kinds ++
      op.puncts.map .punct ++ groupedKinds r.isCompound r.kinds := by
  simp

@[simp] theorem kinds_unary (op : UnaryOp) (x : Expr) :
    (unary loc op x).kinds = op.kind :: groupedKinds x.isCompound x.kinds := by
  simp

@[simp] theorem kinds_assign (t v : Expr) :
    (assign loc t v).kinds = t.kinds ++ .punct .assign :: v.kinds := by
  simp

end Expr

@[simp] theorem Property.kinds_mk (loc : Location) (k : String) (v : Expr) :
    (Property.mk loc k v).kinds = keyKind k :: .punct .colon :: v.kinds := by
  simp

@[simp] theorem ArrowBody.kinds_value (e : Expr) :
    (ArrowBody.value e).kinds = groupedKinds e.isObject e.kinds := by
  simp

@[simp] theorem ArrowBody.kinds_block (ss : List Stmt) :
    (ArrowBody.block ss).kinds = .punct .lbrace :: ss.flatMap Stmt.kinds ++ [.punct .rbrace] := by
  cases ss with
  | nil | cons s ss => simp

/-- The tokens of a statement without the semicolon after it. -/
def Stmt.core : Stmt → List TokenKind
  | .run _ e => e.kinds
  | .bind _ kind binding type value =>
    .word kind.keyword :: binding.kinds ++ TypeExpr.suffixKinds type ++ Expr.initKinds value
  | .yield _ none => [.word "return"]
  | .yield _ (some e) => .word "return" :: e.kinds
  | .block _ ss => .punct .lbrace :: ss.flatMap Stmt.kinds ++ [.punct .rbrace]

/-- The semicolon after a statement; none follows a block. -/
def Stmt.closer : Stmt → List TokenKind
  | .block _ _ => []
  | _ => [.punct .semicolon]

attribute [local simp] Stmt.core Stmt.closer in
theorem Stmt.kinds_eq (s : Stmt) : s.kinds = s.core ++ s.closer := by
  cases s with
  | run loc e => simp
  | bind loc kind binding type value =>
    simp
  | yield loc v =>
    cases v with
    | none => simp
    | some e => simp
  | block loc ss =>
    cases ss with
    | nil | cons s ss => simp

namespace TypeExpr

variable (loc : Location)

@[simp] theorem kinds_reference_nil (n : String) : (reference loc n []).kinds = nameKinds n := by
  simp

@[simp] theorem kinds_reference_cons (n : String) (a : TypeExpr) (as : List TypeExpr) :
    (reference loc n (a :: as)).kinds = nameKinds n ++
      .punct .less :: separated .comma ((a :: as).map kinds) ++ [.punct .greater] := by
  have h := kindsOf_chunksAll [.mark .comma, .blank] rfl (a :: as)
  simp only [TypeExpr.kinds, TypeExpr.chunks, kindsOf_append, kindsOf_mark, kindsOf_nameChunks,
    kindsOf_nil, h]

@[simp] theorem kinds_literal (v : Literal) : (literal loc v).kinds = v.kinds := by
  rw [TypeExpr.kinds, TypeExpr.chunks, Literal.kinds]

@[simp] theorem kinds_union (ms : List TypeExpr) :
    (union loc ms).kinds = separated .pipe (ms.map kinds) := by
  rw [TypeExpr.kinds, TypeExpr.chunks, kindsOf_chunksAll _ (p := .pipe) rfl]

@[simp] theorem kinds_intersection (ms : List TypeExpr) :
    (intersection loc ms).kinds = separated .amp (ms.map kinds) := by
  rw [TypeExpr.kinds, TypeExpr.chunks, kindsOf_chunksAll _ (p := .amp) rfl]

@[simp] theorem kinds_array (t : TypeExpr) :
    (array loc t).kinds =
      groupedKinds t.isCompound t.kinds ++ [.punct .lbracket, .punct .rbracket] := by
  simp

@[simp] theorem kinds_tuple (ts : List TypeExpr) :
    (tuple loc ts).kinds =
      .punct .lbracket :: separated .comma (ts.map kinds) ++ [.punct .rbracket] := by
  have h := kindsOf_chunksAll [.mark .comma, .blank] rfl ts
  simp only [TypeExpr.kinds, TypeExpr.chunks, kindsOf_append, kindsOf_mark, kindsOf_nil,
    cons_append, h]

@[simp] theorem kinds_object (ps : List PropertyType) :
    (object loc ps).kinds =
      .punct .lbrace :: separated .semicolon (ps.map PropertyType.kinds) ++ [.punct .rbrace] := by
  cases ps with
  | nil | cons p ps => simp

@[simp] theorem kinds_query (e : Expr) : (query loc e).kinds = .word "typeof" :: e.kinds := by
  simp

@[simp] theorem kinds_function_none (ps : List Param) :
    (function loc ps none).kinds = .punct .lparen :: separated .comma (ps.map Param.kinds) ++
      [.punct .rparen, .punct .arrow, .word "void"] := by
  simp

@[simp] theorem kinds_function_some (ps : List Param) (r : TypeExpr) :
    (function loc ps (some r)).kinds = .punct .lparen :: separated .comma (ps.map Param.kinds) ++
      .punct .rparen :: .punct .arrow :: r.kinds := by
  simp

@[simp] theorem kinds_conditional (a b c d : TypeExpr) :
    (conditional loc a b c d).kinds = a.kinds ++ .word "extends" :: b.kinds ++
      .punct .question :: c.kinds ++ .punct .colon :: d.kinds := by
  simp

end TypeExpr

@[simp] theorem PropertyType.kinds_mk (n : String) (optional : Bool) (t : TypeExpr) :
    (PropertyType.mk n optional t).kinds =
      keyKind n :: optionalKinds optional ++ .punct .colon :: t.kinds := by
  simp

@[simp] theorem Param.kinds_mk (loc : Location) (m : Option Modifier) (n : String) (optional : Bool)
    (t : Option TypeExpr) :
    (Param.mk loc m n optional t).kinds =
      Modifier.kinds m ++ .word n :: optionalKinds optional ++ TypeExpr.suffixKinds t := by
  simp

end Componentry
