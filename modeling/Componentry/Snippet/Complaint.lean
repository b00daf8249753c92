import Componentry.Snippet.Scan

/-!
# Why a snippet is refused

A snippet whose scan has faults is refused with all of them. Otherwise reading stops at the first
token that does not fit, and that token is the one complaint.
-/

namespace Componentry.Snippet

/-- What is wrong with a snippet at one token. -/
inductive Complaint where
  | lexical (why : Fault)
  | trailing
  | arrowAfterParams
  | assignmentTarget
  | propertyAfterDot
  | closeIndex
  | closeArguments
  | closeGroup
  | expression
  | closeArray
  | propertyKey
  | colonAfterKey
  | closeObject
  | openBlock
  | closeBlock
  | bindingName
  | closePattern
  | localName
  | fieldName
  | paramName
  | paramDefault
  | closeParams
  | methodName
  | openParams
  | conditionalQuestion
  | conditionalColon
  | closeTypeGroup
  | type
  | closeTypeArgs
  | closeTuple
  | closeObjectType
  | propertyName
  | colonAfterProperty
  | functionTypeArrow
  | typeParamName
  deriving DecidableEq, Repr

def Complaint.message : Complaint → String
  | .lexical why => why.message
  | .trailing => "Unexpected token after end of snippet"
  | .arrowAfterParams => "Expected '=>' after arrow function parameters"
  | .assignmentTarget => "Invalid assignment target"
  | .propertyAfterDot => "Expected property name after '.'"
  | .closeIndex => "Expected ']' after index"
  | .closeArguments => "Expected ')' after arguments"
  | .closeGroup => "Expected ')' after expression"
  | .expression => "Expected expression"
  | .closeArray => "Expected ']' after array elements"
  | .propertyKey => "Expected property key"
  | .colonAfterKey => "Expected ':' after property key"
  | .closeObject => "Expected '\x7d' after object literal"
  | .openBlock => "Expected '\x7b'"
  | .closeBlock => "Expected '\x7d' after block"
  | .bindingName => "Expected binding name in array pattern"
  | .closePattern => "Expected ']' after array pattern"
  | .localName => "Expected variable name"
  | .fieldName => "Expected field name"
  | .paramName => "Expected parameter name"
  | .paramDefault => "Parameter default values are not supported"
  | .closeParams => "Expected ')' after parameters"
  | .methodName => "Expected method name"
  | .openParams => "Expected '(' after method name"
  | .conditionalQuestion => "Expected '?' in conditional type"
  | .conditionalColon => "Expected ':' in conditional type"
  | .closeTypeGroup => "Expected ')' after type"
  | .type => "Expected type"
  | .closeTypeArgs => "Expected '>' after type arguments"
  | .closeTuple => "Expected ']' after tuple elements"
  | .closeObjectType => "Expected '\x7d' after object type"
  | .propertyName => "Expected property name"
  | .colonAfterProperty => "Expected ':' after property name"
  | .functionTypeArrow => "Expected '=>' in function type"
  | .typeParamName => "Expected type parameter name"

/-- A complaint with the bytes it is about and where they are. -/
structure ParseError where
  why : Complaint
  lexeme : Bytes
  loc : Location
  deriving DecidableEq, Repr

namespace ParseError

/-- A complaint about a token. -/
def about (why : Complaint) (t : Token) : ParseError := ⟨why, t.lexeme, t.loc⟩

/-- A scan fault, in the document in which the snippet starts at `base`. -/
def ofScan (base : Location) (e : ScanError) : ParseError :=
  ⟨.lexical e.why, e.lexeme, base.within e.loc⟩

/-- One line about an error; the bytes are shown if there are any. -/
def describe (e : ParseError) : String :=
  "Parse error at " ++ e.loc.text ++ ": " ++ e.why.message ++
    if e.lexeme.isEmpty then "" else " (near '" ++ Text.decode e.lexeme ++ "')"

end ParseError

/-- All errors of one snippet on one line. -/
def describeErrors (es : List ParseError) : String :=
  String.intercalate "; " (es.map ParseError.describe)

end Componentry.Snippet
