import Componentry.Snippet.Complaint
import Componentry.Snippet.Tree

/-!
# The grammar of snippets

Reading is by recursive descent. The rules that contain themselves are the fields of `Grammar`;
every other rule is a function of the grammar it may fall back on, and falls back on it only after
it has read at least one token. `grammar n` is the grammar unrolled `n` times, so a snippet of
fewer than `n` tokens never reaches its end. Loops are bounded by the number of tokens that are
left, since each round reads at least one.

Expressions, from the loosest to the tightest form:

* arrow functions, then assignments, both from the right;
* the six levels of `operatorLevels`, each from the left;
* `!`, `-` and `typeof`; then calls, members and elements; then what stands for itself.

Types: conditional types, unions, intersections, lists, and what stands for itself.
-/

namespace Componentry.Snippet

/-- What reading works on: the tokens that are left, and the complaints made so far. -/
structure Desk where
  tokens : List Token
  complaints : List ParseError

abbrev Step := StateM Desk

/-- A rule takes tokens from the front of a list that ends in the end mark, and gives nothing where
it fails. Complaints are made on the side, so it is up to each rule to complain where it fails, and
to fail where a rule that it falls back on did. -/
abbrev Parse (α : Type) := Step (Option α)

/-! ## Single tokens -/

/-- The token in front of an empty list. -/
def noToken : Token := ⟨.done, [], Location.nowhere⟩

def peek : Step Token := fun s => (s.tokens.headD noToken, s)

/-- The token after the next one. -/
def peekSecond : Step Token := fun s => (s.tokens.tail.headD noToken, s)

/-- Take the next token. The end mark stays. -/
def advance : Step Token := fun s =>
  match s.tokens with
  | [] => (noToken, s)
  | t :: rest => if t.kind = .done then (t, s) else (t, { s with tokens := rest })

/-- Complain about the token `t`. -/
def note (why : Complaint) (t : Token) : Step Unit :=
  modify fun s => { s with complaints := s.complaints ++ [.about why t] }

/-- Complain about the token `t` and give nothing. -/
def complain {α : Type} (why : Complaint) (t : Token) : Step (Option α) := do
  note why t
  return none

/-- The bound on recursion was reached. -/
def exhaust {α : Type} : Step (Option α) := return none

/-- Run a loop with a bound that its rounds cannot reach. -/
def bounded {α : Type} (loop : Nat → Step (Option α)) : Step (Option α) := fun s =>
  loop (s.tokens.length + 1) s

/-- All tokens are read. -/
def isDone : Step Bool := do return (← peek).kind == .done

/-- The next token is the mark `p`. -/
def sees (p : Punct) : Step Bool := do return (← peek).isPunct p

/-- Take the mark `p` if it is next. -/
def accept (p : Punct) : Step Bool := do
  if ← sees p then
    let _ ← advance
    return true
  else return false

/-- Take the mark `p`. -/
def expect (p : Punct) (why : Complaint) : Step (Option Unit) := do
  let t ← peek
  if t.isPunct p then
    let _ ← advance
    return some ()
  else complain why t

/-- Take a word. -/
def expectWord (why : Complaint) : Step (Option String) := do
  let t ← peek
  match t.kind with
  | .word w =>
    let _ ← advance
    return some w
  | _ => complain why t

/-- The name that a token can give a member: a word or a quoted text. -/
def memberName? (t : Token) : Option String :=
  match t.kind with
  | .word w => some w
  | .quoted s => some s
  | _ => none

/-- Take the name of a member. -/
def expectMemberName (why : Complaint) : Step (Option String) := do
  let t ← peek
  match memberName? t with
  | some name =>
    let _ ← advance
    return some name
  | none => complain why t

/-! ## Loops -/

/-- Items up to the mark `close` or the end, with one of the marks `seps` after each item but the
last, where it may stand. -/
def itemsLoop {α : Type} (seps : List Punct) (close : Punct) (item : Parse α) :
    Nat → Step (Option (List α))
  | 0 => exhaust
  | n + 1 => do
    if (← sees close) || (← isDone) then return some []
    let some a ← item | return none
    let t ← peek
    if seps.any t.isPunct then
      let _ ← advance
      return (← itemsLoop seps close item n).map (a :: ·)
    else return some [a]

/-- Items with commas between them up to and including the mark `close`. -/
def listed {α : Type} (close : Punct) (why : Complaint) (item : Parse α) :
    Step (Option (List α)) := do
  let some items ← bounded (itemsLoop [.comma] close item) | return none
  return (← expect close why).map fun _ => items

/-- The items that follow, each after the mark `sep`. -/
def followers {α : Type} (sep : Punct) (item : Parse α) : Nat → Step (Option (List α))
  | 0 => exhaust
  | n + 1 => do
    if ← accept sep then
      let some a ← item | return none
      return (← followers sep item n).map (a :: ·)
    else return some []

/-- One or more items with the mark `sep` between them. -/
def chain {α : Type} (sep : Punct) (item : Parse α) : Step (Option (List α)) := do
  let some first ← item | return none
  return (← bounded (followers sep item)).map (first :: ·)

/-- The tokens after the parenthesis that closes the one in front; `depth` are open. -/
def afterClosing : Nat → List Token → Option (List Token)
  | _, [] => none
  | depth, t :: rest =>
    match t.kind with
    | .done => none
    | .punct .lparen => afterClosing (depth + 1) rest
    | .punct .rparen => if depth = 1 then some rest else afterClosing (depth - 1) rest
    | _ => afterClosing depth rest

/-- The parenthesis in front is closed just before `=>`. -/
def arrowFollows : Step Bool := fun s =>
  (((afterClosing 0 s.tokens).bind List.head?).any (·.isPunct .arrow), s)

/-! ## The rules that contain themselves -/

/-- The rules that other rules fall back on. -/
structure Grammar where
  expression : Parse Expr
  unary : Parse Expr
  statement : Parse Stmt
  type : Parse TypeExpr

/-! ## Parameters -/

/-- Access words in front of a parameter; the first of them counts. A word is one of them only if
another word follows. -/
def modifiers : Nat → Step (Option (Option Modifier))
  | 0 => exhaust
  | n + 1 => do
    let t ← peek
    let next ← peekSecond
    match t.kind, next.kind with
    | .word w, .word _ =>
      match Modifier.ofWord? w with
      | some m =>
        let _ ← advance
        return (← modifiers n).map fun _ => some m
      | none => return some none
    | _, _ => return some none

/-- A type after `:`, if there is one. -/
def typeSuffix (self : Grammar) : Step (Option (Option TypeExpr)) := do
  if ← accept .colon then return (← self.type).map some else return some none

/-- An initial value after `=`, if there is one. -/
def valueSuffix (self : Grammar) : Step (Option (Option Expr)) := do
  if ← accept .assign then return (← self.expression).map some else return some none

/-- `[modifier] name[?][: type]`. -/
def param (self : Grammar) : Step (Option Param) := do
  let start ← peek
  let some modifier ← bounded modifiers | return none
  let some name ← expectWord .paramName | return none
  let optional ← accept .question
  let some type ← typeSuffix self | return none
  let next ← peek
  if next.isPunct .assign then complain .paramDefault next
  else return some (.mk start.loc modifier name optional type)

/-- Parameters after their opening parenthesis. -/
def params (self : Grammar) : Step (Option (List Param)) := listed .rparen .closeParams (param self)

/-! ## Expressions -/

/-- Statements up to a closing brace. -/
def statementsLoop (self : Grammar) : Nat → Step (Option (List Stmt))
  | 0 => exhaust
  | n + 1 => do
    if (← sees .rbrace) || (← isDone) then return some []
    if ← accept .semicolon then statementsLoop self n
    else
      let some s ← self.statement | return none
      return (← statementsLoop self n).map (s :: ·)

/-- `{ statements }`. -/
def block (self : Grammar) : Step (Option (List Stmt)) := do
  let some _ ← expect .lbrace .openBlock | return none
  let some body ← bounded (statementsLoop self) | return none
  return (← expect .rbrace .closeBlock).map fun _ => body

/-- The body of an arrow function after its parameters. -/
def arrowBody (self : Grammar) : Step (Option ArrowBody) := do
  let some _ ← expect .arrow .arrowAfterParams | return none
  if ← sees .lbrace then return (← block self).map .block
  else return (← self.expression).map .value

/-- Arguments after their opening parenthesis. -/
def arguments (self : Grammar) : Step (Option (List Expr)) :=
  listed .rparen .closeArguments self.expression

/-- The name that a token can give an entry: that of a member, or a number as it is written. -/
def propertyKey? (t : Token) : Option String :=
  match t.kind with
  | .number _ => some t.shown
  | _ => memberName? t

/-- One entry of an object literal; a word alone stands for itself. -/
def property (self : Grammar) : Step (Option Property) := do
  let t ← peek
  let some key := propertyKey? t | complain .propertyKey t
  let _ ← advance
  if ← accept .colon then return (← self.expression).map (.mk t.loc key)
  else match t.kind with
    | .word w => return some (.mk t.loc key (.name t.loc w))
    | _ => complain .colonAfterKey (← peek)

/-- An expression that stands for itself. -/
def primary (self : Grammar) : Step (Option Expr) := do
  let t ← peek
  match t.kind with
  | .number v =>
    let _ ← advance
    return some (.literal t.loc (.number v))
  | .quoted s =>
    let _ ← advance
    return some (.literal t.loc (.text s))
  | .word w =>
    let _ ← advance
    return some (match w with
      | "true" => .literal t.loc (.bool true)
      | "false" => .literal t.loc (.bool false)
      | "null" => .literal t.loc .null
      | "this" => .self t.loc
      | "super" => .parent t.loc
      | _ => .name t.loc w)
  | .punct .lparen =>
    let _ ← advance
    let some inner ← self.expression | return none
    return (← expect .rparen .closeGroup).map fun _ => inner
  | .punct .lbracket =>
    let _ ← advance
    return (← listed .rbracket .closeArray self.expression).map (.array t.loc)
  | .punct .lbrace =>
    let _ ← advance
    return (← listed .rbrace .closeObject (property self)).map (.object t.loc)
  | _ => complain .expression t

/-- Members of `e`, each after a dot. -/
def membersLoop : Nat → Expr → Step (Option Expr)
  | 0, _ => exhaust
  | n + 1, e => do
    if ← accept .dot then
      let some name ← expectWord .propertyAfterDot | return none
      membersLoop n (.member e.loc e name)
    else return some e

/-- What is created by `new`: an expression that stands for itself, with its members. -/
def callee (self : Grammar) : Step (Option Expr) := do
  let some first ← primary self | return none
  bounded fun n => membersLoop n first

/-- `new` with the class to create and the arguments, which may be left out. -/
def creation (self : Grammar) : Step (Option Expr) := do
  let start ← advance
  let some created ← callee self | return none
  if ← accept .lparen then return (← arguments self).map (.create start.loc created)
  else return some (.create start.loc created [])

/-- Calls, members and elements of `e`. -/
def suffixesLoop (self : Grammar) : Nat → Expr → Step (Option Expr)
  | 0, _ => exhaust
  | n + 1, e => do
    if ← accept .lparen then
      let some args ← arguments self | return none
      suffixesLoop self n (.call e.loc e args)
    else if ← accept .dot then
      let some name ← expectWord .propertyAfterDot | return none
      suffixesLoop self n (.member e.loc e name)
    else if ← accept .lbracket then
      let some key ← self.expression | return none
      let some _ ← expect .rbracket .closeIndex | return none
      suffixesLoop self n (.index e.loc e key)
    else return some e

/-- An expression with its calls, members and elements. -/
def call (self : Grammar) : Step (Option Expr) := do
  let some head ← if (← peek).isWord "new" then creation self else primary self | return none
  bounded fun n => suffixesLoop self n head

/-- The operator before an operand that a token is. -/
def unaryOp? (t : Token) : Option UnaryOp :=
  match t.kind with
  | .punct .bang => some .not
  | .punct .minus => some .minus
  | .word "typeof" => some .typeOf
  | _ => none

/-- An operand with the operators before it. -/
def unary (self : Grammar) : Step (Option Expr) := do
  let t ← peek
  match unaryOp? t with
  | some op =>
    let _ ← advance
    return (← self.unary).map (.unary t.loc op)
  | none => call self

/-- The operators between two operands, from the loosest level to the tightest. -/
def operatorLevels : List (List (Punct × BinaryOp)) :=
  [[(.or, .or)],
   [(.and, .and)],
   [(.equal, .equal), (.unequal, .unequal), (.strictEqual, .strictEqual),
    (.strictUnequal, .strictUnequal)],
   [(.less, .less), (.greater, .greater), (.lessEqual, .lessEqual)],
   [(.plus, .add), (.minus, .sub)],
   [(.star, .mul), (.slash, .div), (.percent, .mod)]]

/-- The operator of the level that comes next. `>` and `=` together are one operator. -/
def operator? (level : List (Punct × BinaryOp)) : Step (Option BinaryOp) := do
  let t ← peek
  match level.find? fun entry => t.isPunct entry.1 with
  | none => return none
  | some (_, op) =>
    let _ ← advance
    if op = .greater then
      if ← accept .assign then return some .greaterEqual
    return some op

/-- The operators and operands of one level after `left`, from the left. -/
def operandsLoop (level : List (Punct × BinaryOp)) (operand : Parse Expr) :
    Nat → Expr → Step (Option Expr)
  | 0, _ => exhaust
  | n + 1, left => do
    match ← operator? level with
    | none => return some left
    | some op =>
      let some right ← operand | return none
      operandsLoop level operand n (.binary left.loc op left right)

/-- Operands with the operators of the levels between them. -/
def binary (operand : Parse Expr) : List (List (Punct × BinaryOp)) → Step (Option Expr)
  | [] => operand
  | level :: tighter => do
    let some first ← binary operand tighter | return none
    bounded fun n => operandsLoop level (binary operand tighter) n first

/-- The expression can be assigned to. -/
def isTarget : Expr → Bool
  | .name _ _ | .member _ _ _ | .index _ _ _ => true
  | _ => false

/-- An assignment, or what may stand on its left. -/
def assignment (self : Grammar) : Step (Option Expr) := do
  let some target ← binary (unary self) operatorLevels | return none
  let eq ← peek
  if eq.isPunct .assign then
    let _ ← advance
    let some value ← self.expression | return none
    if isTarget target then return some (.assign target.loc target value)
    else complain .assignmentTarget eq
  else return some target

/-- Any expression. -/
def expression (self : Grammar) : Step (Option Expr) := do
  let t ← peek
  match t.kind with
  | .word w =>
    if (← peekSecond).isPunct .arrow then
      let _ ← advance
      return (← arrowBody self).map (.arrow t.loc [.mk t.loc none w false none])
    else assignment self
  | .punct .lparen =>
    if ← arrowFollows then
      let _ ← advance
      let some ps ← params self | return none
      return (← arrowBody self).map (.arrow t.loc ps)
    else assignment self
  | _ => assignment self

/-! ## Statements -/

/-- What a declaration statement binds. -/
def binding : Step (Option Binding) := do
  if ← accept .lbracket then
    return (← listed .rbracket .closePattern (expectWord .bindingName)).map .elements
  else return (← expectWord .localName).map .name

/-- A declaration statement after its first word. -/
def declaration (self : Grammar) (loc : Location) (kind : BindingKind) : Step (Option Stmt) := do
  let some bound ← binding | return none
  let some type ← typeSuffix self | return none
  return (← valueSuffix self).map (.bind loc kind bound type)

/-- A statement without the semicolon after it. -/
def bareStatement (self : Grammar) : Step (Option Stmt) := do
  let t ← peek
  match t.kind with
  | .word "const" =>
    let _ ← advance
    declaration self t.loc .fixed
  | .word "let" =>
    let _ ← advance
    declaration self t.loc .settable
  | .word "return" =>
    let _ ← advance
    if (← isDone) || (← sees .semicolon) || (← sees .rbrace) then return some (.yield t.loc none)
    else return (← self.expression).map fun e => .yield t.loc (some e)
  | .punct .lbrace => return (← block self).map (.block t.loc)
  | _ => return (← expression self).map (.run t.loc)

/-- Any statement; a semicolon after it belongs to it. -/
def statement (self : Grammar) : Step (Option Stmt) := do
  let some s ← bareStatement self | return none
  let _ ← accept .semicolon
  return some s

/-! ## Types -/

/-- The words of a dotted name after its first. A dot counts only if a word follows. -/
def dottedLoop : Nat → String → Step (Option String)
  | 0, _ => exhaust
  | n + 1, name => do
    let dot ← peek
    let next ← peekSecond
    match next.kind with
    | .word w =>
      if dot.isPunct .dot then
        let _ ← advance
        let _ ← advance
        dottedLoop n (name ++ "." ++ w)
      else return some name
    | _ => return some name

/-- A named type with its arguments. -/
def reference (self : Grammar) (loc : Location) (word : String) : Step (Option TypeExpr) := do
  let _ ← advance
  let some name ← bounded fun n => dottedLoop n word | return none
  if ← accept .less then
    let some args ← chain .comma self.type | return none
    return (← expect .greater .closeTypeArgs).map fun _ => .reference loc name args
  else return some (.reference loc name [])

/-- One property of an object type, without the word `readonly` in front of it. -/
def signature (self : Grammar) : Step (Option PropertyType) := do
  let t ← peek
  let some name ← expectMemberName .propertyName | return none
  let optional ← accept .question
  if ← accept .lparen then
    let some ps ← params self | return none
    return (← typeSuffix self).map fun result => .mk name optional (.function t.loc ps result)
  else
    let some _ ← expect .colon .colonAfterProperty | return none
    return (← self.type).map (.mk name optional)

/-- One property of an object type: `name?: type` or `name?(params): type`. -/
def propertySignature (self : Grammar) : Step (Option PropertyType) := do
  let first ← peek
  let second ← peekSecond
  if first.isWord "readonly" && (memberName? second).isSome then
    let _ ← advance
  signature self

/-- A type that stands for itself. -/
def primaryType (self : Grammar) : Step (Option TypeExpr) := do
  let t ← peek
  match t.kind with
  | .punct .lparen =>
    if ← arrowFollows then
      let _ ← advance
      let some ps ← params self | return none
      let some _ ← expect .arrow .functionTypeArrow | return none
      return (← self.type).map fun result => .function t.loc ps (some result)
    else
      let _ ← advance
      let some inner ← self.type | return none
      return (← expect .rparen .closeTypeGroup).map fun _ => inner
  | .punct .lbracket =>
    let _ ← advance
    return (← listed .rbracket .closeTuple self.type).map (.tuple t.loc)
  | .punct .lbrace =>
    let _ ← advance
    let some properties ← bounded (itemsLoop [.semicolon, .comma] .rbrace (propertySignature self))
      | return none
    return (← expect .rbrace .closeObjectType).map fun _ => .object t.loc properties
  | .quoted s =>
    let _ ← advance
    return some (.literal t.loc (.text s))
  | .number v =>
    let _ ← advance
    return some (.literal t.loc (.number v))
  | .punct .minus =>
    match (← peekSecond).kind with
    | .number v =>
      let _ ← advance
      let _ ← advance
      return some (.literal t.loc (.number v.neg))
    | _ => complain .type t
  | .word "true" =>
    let _ ← advance
    return some (.literal t.loc (.bool true))
  | .word "false" =>
    let _ ← advance
    return some (.literal t.loc (.bool false))
  | .word "typeof" =>
    let _ ← advance
    return (← call self).map (.query t.loc)
  | .word w => reference self t.loc w
  | _ => complain .type t

/-- The lists of `t`, one for each `[]` that follows. -/
def arraysLoop : Nat → TypeExpr → Step (Option TypeExpr)
  | 0, _ => exhaust
  | n + 1, t => do
    if (← sees .lbracket) && (← peekSecond).isPunct .rbracket then
      let _ ← advance
      let _ ← advance
      arraysLoop n (.array t.loc t)
    else return some t

/-- A type with its `[]`. -/
def arrayType (self : Grammar) : Step (Option TypeExpr) := do
  let some t ← primaryType self | return none
  bounded fun n => arraysLoop n t

/-- One type stands for itself; more are kept together. -/
def combined (build : List TypeExpr → TypeExpr) : List TypeExpr → TypeExpr
  | [t] => t
  | ts => build ts

/-- Types with `&` between them. -/
def intersectionType (self : Grammar) : Step (Option TypeExpr) := do
  let start ← peek
  return (← chain .amp (arrayType self)).map (combined (.intersection start.loc))

/-- Types with `|` between them, and perhaps one in front. -/
def unionType (self : Grammar) : Step (Option TypeExpr) := do
  let start ← peek
  let _ ← accept .pipe
  return (← chain .pipe (intersectionType self)).map (combined (.union start.loc))

/-- Any type. -/
def type (self : Grammar) : Step (Option TypeExpr) := do
  let some tested ← unionType self | return none
  let word ← peek
  if word.isWord "extends" then
    let _ ← advance
    let some bound ← unionType self | return none
    let some _ ← expect .question .conditionalQuestion | return none
    let some whenTrue ← self.type | return none
    let some _ ← expect .colon .conditionalColon | return none
    return (← self.type).map (.conditional word.loc tested bound whenTrue)
  else return some tested

/-! ## Members -/

/-- The words that may stand in front of a member. -/
def modifierWords : List String :=
  ["static", "readonly", "public", "private", "protected", "declare", "override", "async"]

/-- The words in front of a member. A word is one of them only if the name of a member follows. -/
def memberWords : Nat → Step (Option (List String))
  | 0 => exhaust
  | n + 1 => do
    let t ← peek
    let next ← peekSecond
    match t.kind with
    | .word w =>
      if modifierWords.contains w && (memberName? next).isSome then
        let _ ← advance
        return (← memberWords n).map (w :: ·)
      else return some []
    | _ => return some []

/-- `[modifiers] name[?|!][: type][= value]`. -/
def field (self : Grammar) : Step (Option Field) := do
  let start ← peek
  let some words ← bounded memberWords | return none
  let some name ← expectMemberName .fieldName | return none
  let optional ← accept .question
  let definite ← if optional then pure false else accept .bang
  let some type ← typeSuffix self | return none
  return (← valueSuffix self).map fun init =>
    { loc := start.loc, name, type, optional, static := words.contains "static"
      readOnly := words.contains "readonly", definite, init }

/-- `[modifiers] name(params)[: type]`. -/
def method (self : Grammar) : Step (Option Method) := do
  let start ← peek
  let some words ← bounded memberWords | return none
  let some name ← expectMemberName .methodName | return none
  let some _ ← expect .lparen .openParams | return none
  let some ps ← params self | return none
  return (← typeSuffix self).map fun result =>
    { loc := start.loc, name, params := ps, result, static := words.contains "static", body := [] }

/-- `name[= type]`. -/
def typeParam (self : Grammar) : Step (Option TypeParam) := do
  let some name ← expectWord .typeParamName | return none
  if ← accept .assign then return (← self.type).map fun t => ⟨name, some t⟩
  else return some ⟨name, none⟩

/-! ## The grammar -/

/-- The grammar unrolled `n` times. -/
def grammar : Nat → Grammar
  | 0 => ⟨exhaust, exhaust, exhaust, exhaust⟩
  | n + 1 =>
    ⟨fun s => expression (grammar n) s, fun s => unary (grammar n) s,
     fun s => statement (grammar n) s, fun s => type (grammar n) s⟩

/-- Complain about what is left, if nothing was complained about before; a semicolon may close the
snippet. -/
def finish : Step Unit := do
  if (← get).complaints = [] then
    let _ ← accept .semicolon
    let t ← peek
    if t.kind ≠ .done then note .trailing t

/-- What a rule reads must be the whole snippet. Where there are complaints, nothing is given. -/
def whole {α : Type} (rule : Parse α) : Step (Option α) := do
  let a ← rule
  finish
  if (← get).complaints = [] then return a else return none

/-- Read all of `ts` by a rule of the grammar: what is given, and the complaints. -/
def readTokens {α : Type} (rule : Grammar → Parse α) (ts : List Token) :
    Option α × List ParseError :=
  let (a, s) := whole (rule (grammar (ts.length + 1))) ⟨ts, []⟩
  (a, s.complaints)

/-- Read a text that starts at `base` by a rule of the grammar: what is given, and the complaints.
A text with scan faults is not read. -/
def parse {α : Type} (rule : Grammar → Parse α) (base : Location) (source : String) :
    Option α × List ParseError :=
  let bytes := Text.utf8 source
  match faults bytes with
  | [] => readTokens rule ((tokens bytes).map (Token.within base))
  | es => (none, es.map (ParseError.ofScan base))

/-- What was given, or the complaints. -/
def verdict {α : Type} : Option α × List ParseError → Except (List ParseError) α
  | (some a, []) => .ok a
  | (_, es) => .error es

/-- What a text is read as, or the complaints about it. -/
def read {α : Type} (rule : Grammar → Parse α) (base : Location) (source : String) :
    Except (List ParseError) α :=
  verdict (parse rule base source)

end Componentry.Snippet
