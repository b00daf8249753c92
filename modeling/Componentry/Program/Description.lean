import Componentry.Yaml.Decode

/-!
# Program descriptions

A program is described by a YAML document: files with their declarations, in which types,
expressions, statements and members are given as source text. An `Excerpt` is such a text with the
place where it starts; the place of a quoted text is the character after its quote.
-/

namespace Componentry.Description

open Yaml

/-- A source text and where it starts in the description. -/
structure Excerpt where
  text : String
  loc : Location
  deriving DecidableEq, Repr

/-- The excerpt of a field that is left out. -/
def Excerpt.empty : Excerpt := ⟨"", Location.nowhere⟩

/-- Source texts are scalars; anything else stops decoding. -/
def excerpt : Decoder Excerpt := fun node => do
  if node.isNull then return none
  match node with
  | .scalar loc style value =>
    return some ⟨value, if style.isQuoted then loc.advance 1 else loc⟩
  | .sequence loc _ => throw (.expectedText loc.line "a sequence")
  | .mapping loc _ => throw (.expectedText loc.line "a mapping")

/-- A list of source texts. -/
def excerpts : Decoder (List Excerpt) := listDecoder "loader.snippet" excerpt

/-! ## Records -/

structure InterfaceDesc where
  name : Excerpt := .empty
  typeParams : List Excerpt := []
  parents : List Excerpt := []
  fields : List Excerpt := []
  methods : List Excerpt := []

structure AliasDesc where
  name : Excerpt := .empty
  typeParams : List Excerpt := []
  type : Excerpt := .empty

structure DecoratorDesc where
  name : Excerpt := .empty
  recognized : Bool := false
  component : Bool := false
  withNodes : Bool := false

/-- A decorator as a class carries it. -/
structure DecorationDesc where
  name : Excerpt := .empty
  args : List Excerpt := []

structure ConstructorDesc where
  params : List Excerpt := []
  body : List Excerpt := []

/-- A described member: a field or a method. -/
structure MemberDesc where
  field : Option Excerpt := none
  method : Option Excerpt := none
  body : List Excerpt := []

structure ClassDesc where
  name : Excerpt := .empty
  typeParams : List Excerpt := []
  parent : Option Excerpt := none
  implemented : List Excerpt := []
  decorations : List DecorationDesc := []
  constructor : Option ConstructorDesc := none
  members : List MemberDesc := []

structure FileDesc where
  path : String := ""
  external : Bool := false
  interfaces : List InterfaceDesc := []
  aliases : List AliasDesc := []
  decorators : List DecoratorDesc := []
  classes : List ClassDesc := []

structure ProgramDesc where
  files : List FileDesc := []

/-! ## Decoders -/

def interfaceDesc : Decoder InterfaceDesc :=
  recordDecoder "loader.interfaceDoc" {}
    [.of "name" excerpt fun r v => { r with name := v },
     .of "type_params" excerpts fun r v => { r with typeParams := v },
     .of "extends" excerpts fun r v => { r with parents := v },
     .of "fields" excerpts fun r v => { r with fields := v },
     .of "methods" excerpts fun r v => { r with methods := v }]

def aliasDesc : Decoder AliasDesc :=
  recordDecoder "loader.aliasDoc" {}
    [.of "name" excerpt fun r v => { r with name := v },
     .of "type_params" excerpts fun r v => { r with typeParams := v },
     .of "type" excerpt fun r v => { r with type := v }]

def decoratorDesc : Decoder DecoratorDesc :=
  recordDecoder "loader.annotationDoc" {}
    [.of "name" excerpt fun r v => { r with name := v },
     .of "recognized" boolDecoder fun r v => { r with recognized := v },
     .of "component" boolDecoder fun r v => { r with component := v },
     .of "with_nodes" boolDecoder fun r v => { r with withNodes := v }]

def decorationDesc : Decoder DecorationDesc :=
  recordDecoder "loader.annotationUseDoc" {}
    [.of "name" excerpt fun r v => { r with name := v },
     .of "args" excerpts fun r v => { r with args := v }]

def constructorDesc : Decoder ConstructorDesc :=
  recordDecoder "loader.constructorDoc" {}
    [.of "params" excerpts fun r v => { r with params := v },
     .of "body" excerpts fun r v => { r with body := v }]

def memberDesc : Decoder MemberDesc :=
  recordDecoder "loader.memberDoc" {}
    [.of "field" excerpt fun r v => { r with field := some v },
     .of "method" excerpt fun r v => { r with method := some v },
     .of "body" excerpts fun r v => { r with body := v }]

def classDesc : Decoder ClassDesc :=
  recordDecoder "loader.classDoc" {}
    [.of "name" excerpt fun r v => { r with name := v },
     .of "type_params" excerpts fun r v => { r with typeParams := v },
     .of "extends" excerpt fun r v => { r with parent := some v },
     .of "implements" excerpts fun r v => { r with implemented := v },
     .of "annotations" (listDecoder "loader.annotationUseDoc" decorationDesc) fun r v =>
       { r with decorations := v },
     .of "constructor" constructorDesc fun r v => { r with constructor := some v },
     .of "members" (listDecoder "loader.memberDoc" memberDesc) fun r v =>
       { r with members := v }]

def fileDesc : Decoder FileDesc :=
  recordDecoder "loader.fileDoc" {}
    [.of "path" textDecoder fun r v => { r with path := v },
     .of "external" boolDecoder fun r v => { r with external := v },
     .of "interfaces" (listDecoder "loader.interfaceDoc" interfaceDesc) fun r v =>
       { r with interfaces := v },
     .of "types" (listDecoder "loader.aliasDoc" aliasDesc) fun r v => { r with aliases := v },
     .of "annotations" (listDecoder "loader.annotationDoc" decoratorDesc) fun r v =>
       { r with decorators := v },
     .of "classes" (listDecoder "loader.classDoc" classDesc) fun r v =>
       { r with classes := v }]

def programDesc : Decoder ProgramDesc :=
  recordDecoder "loader.programDoc" {}
    [.of "files" (listDecoder "loader.fileDoc" fileDesc) fun r v => { r with files := v }]

/-- The program that a text describes, for a way to read it. -/
def read (reader : Yaml.Reader) (s : String) : Except Failure ProgramDesc :=
  match reader s with
  | .error e => .error (.malformed e.loc)
  | .ok none => .error .empty
  | .ok (some node) => (decodeNode programDesc node).map (·.getD {})

end Componentry.Description
