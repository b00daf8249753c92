import Componentry.Text.Quoted
import Componentry.Text.Utf8
import Componentry.Yaml.Scalar

/-!
# Decoding documents

A decoder turns a node into a value of a known shape. Problems do not stop it: they are collected
in document order, and decoding goes on after them. Only a text that is no scalar stops decoding
at once.

A node that stands for nothing leaves its field as it is; such an item of a list is left out.
-/

namespace Componentry.Yaml

/-- A node that does not fit the shape it should have. -/
inductive Problem where
  | unknownField (line : Int) (field shape : String)
  | duplicateKey (line : Int) (key : String) (firstLine : Int)
  | scalarMismatch (line : Int) (tag : Tag) (value shape : String)
  | sequenceMismatch (line : Int) (shape : String)
  | mappingMismatch (line : Int) (shape : String)
  deriving DecidableEq, Repr

/-- At most ten bytes of a value are shown; of a longer one the first seven. -/
def shortened (value : String) : String :=
  let bytes := Text.utf8 value
  if bytes.length > 10 then Text.decode (bytes.take 7) ++ "..." else value

def Problem.message : Problem → String
  | .unknownField line field shape =>
    "line " ++ toString line ++ ": field " ++ field ++ " not found in type " ++ shape
  | .duplicateKey line key firstLine =>
    "line " ++ toString line ++ ": mapping key " ++ Text.quote key ++ " already defined at line " ++
      toString firstLine
  | .scalarMismatch line tag value shape =>
    "line " ++ toString line ++ ": cannot unmarshal " ++ tag.name ++ " `" ++ shortened value ++
      "` into " ++ shape
  | .sequenceMismatch line shape =>
    "line " ++ toString line ++ ": cannot unmarshal !!seq into " ++ shape
  | .mappingMismatch line shape =>
    "line " ++ toString line ++ ": cannot unmarshal !!map into " ++ shape

/-- Why a text cannot be decoded. -/
inductive Failure where
  /-- The text holds no document. -/
  | empty
  /-- The text is no document. -/
  | malformed (loc : Location)
  /-- A collection stands where a text is expected. -/
  | expectedText (line : Int) (found : String)
  /-- The document does not have the expected shape. -/
  | problems (all : List Problem)
  deriving DecidableEq, Repr

def Failure.message : Failure → String
  | .empty => "EOF"
  | .malformed loc => "yaml: line " ++ toString loc.line ++ ": did not find expected node content"
  | .expectedText line found =>
    "line " ++ toString line ++ ": expected a string, found " ++ found
  | .problems all =>
    "yaml: unmarshal errors:" ++ String.join (all.map fun p => "\n  " ++ p.message)

/-- Decoding collects problems and may stop. -/
abbrev Decode := StateT (List Problem) (Except Failure)

/-- A decoder of nodes. The result is absent if the node stands for nothing or does not fit. -/
abbrev Decoder (α : Type) := Node → Decode (Option α)

/-- The problem of a node that does not fit a shape. -/
def mismatch (shape : String) : Node → Problem
  | .scalar loc style value => .scalarMismatch loc.line (tagOf style value) value shape
  | .sequence loc _ => .sequenceMismatch loc.line shape
  | .mapping loc _ => .mappingMismatch loc.line shape

/-- The keys of a mapping that are written more than once, each with every earlier place. -/
def duplicateKeys : List (Node × Node) → List Problem
  | [] => []
  | (key, _) :: rest =>
    (rest.filterMap fun (other, _) =>
      match key, other with
      | .scalar first _ a, .scalar again _ b =>
        if a = b then some (.duplicateKey again.line b first.line) else none
      | .sequence first _, .sequence again _ => some (.duplicateKey again.line "" first.line)
      | .mapping first _, .mapping again _ => some (.duplicateKey again.line "" first.line)
      | _, _ => none) ++ duplicateKeys rest

mutual

/-- The keys that are written more than once anywhere in a node. Nothing inside a mapping that
repeats a key is looked at. -/
def repeatedKeys : Node → List Problem
  | .scalar .. => []
  | .sequence _ items => repeatedKeysAll items
  | .mapping _ entries =>
    match duplicateKeys entries with
    | [] => repeatedKeysEntries entries
    | ps => ps

/-- The keys that are written more than once in nodes. -/
def repeatedKeysAll : List Node → List Problem
  | [] => []
  | node :: nodes => repeatedKeys node ++ repeatedKeysAll nodes

/-- The keys that are written more than once in the values of entries. -/
def repeatedKeysEntries : List (Node × Node) → List Problem
  | [] => []
  | (_, value) :: entries => repeatedKeys value ++ repeatedKeysEntries entries

end

/-- The problems of a node that does not fit a shape. Of a mapping that repeats a key, only that is
reported. -/
def misfits (shape : String) (node : Node) : List Problem :=
  match node with
  | .mapping _ entries =>
    match duplicateKeys entries with
    | [] => [mismatch shape node]
    | ps => ps
  | _ => [mismatch shape node]

/-- Note that a node does not fit a shape. -/
def reportMisfit {α : Type} (shape : String) (node : Node) : Decode (Option α) := do
  modify (· ++ misfits shape node)
  return none

/-- A text; any scalar is one. -/
def textDecoder : Decoder String := fun node => do
  if node.isNull then return none
  match node with
  | .scalar _ _ value => return some value
  | _ => reportMisfit "string" node

/-- The truth value that a word of everyday speech stands for, in small letters, in capitals or with
a capital in front. -/
def wordTruth? (s : String) : Option Bool :=
  if ["y", "Y", "yes", "Yes", "YES", "on", "On", "ON"].contains s then some true
  else if ["n", "N", "no", "No", "NO", "off", "Off", "OFF"].contains s then some false
  else none

/-- A truth value; the words of everyday speech are understood too. -/
def boolDecoder : Decoder Bool := fun node => do
  if node.isNull then return none
  match node with
  | .scalar _ style value =>
    match (if style = .plain then boolOf? value else none) <|> wordTruth? value with
    | some b => return some b
    | none => reportMisfit "bool" node
  | _ => reportMisfit "bool" node

def listDecoder {α : Type} (shape : String) (item : Decoder α) : Decoder (List α) := fun node => do
  if node.isNull then return some []
  match node with
  | .sequence _ items => return some ((← items.mapM item).filterMap id)
  | _ => reportMisfit ("[]" ++ shape) node

/-- A field of a record: its key, and what its value does to the record. -/
structure FieldDecoder (α : Type) where
  key : String
  set : α → Node → Decode α

/-- A field whose value is decoded and put into the record. -/
def FieldDecoder.of {α β : Type} (key : String) (decode : Decoder β) (put : α → β → α) :
    FieldDecoder α :=
  ⟨key, fun record node => do
    match ← decode node with
    | some value => return put record value
    | none => return record⟩

/-- The entries of a mapping put into a record one after another. -/
def decodeEntries {α : Type} (shape : String) (fields : List (FieldDecoder α)) :
    α → List (Node × Node) → Decode α
  | record, [] => return record
  | record, (key, value) :: rest => do
    match ← textDecoder key with
    | none => decodeEntries shape fields record rest
    | some name =>
      match fields.find? (·.key == name) with
      | some field => decodeEntries shape fields (← field.set record value) rest
      | none =>
        modify (· ++ [.unknownField key.loc.line name shape])
        decodeEntries shape fields record rest

/-- A record with known fields. -/
def recordDecoder {α : Type} (shape : String) (empty : α) (fields : List (FieldDecoder α)) :
    Decoder α := fun node => do
  if node.isNull then return none
  match node with
  | .mapping _ entries =>
    match duplicateKeys entries with
    | [] => return some (← decodeEntries shape fields empty entries)
    | ps =>
      modify (· ++ ps)
      return none
  | _ => reportMisfit shape node

/-- Decode a document. -/
def decodeNode {α : Type} (decode : Decoder α) (node : Node) : Except Failure (Option α) :=
  match (decode node).run [] with
  | .error e => .error e
  | .ok (value, []) => .ok value
  | .ok (_, ps) => .error (.problems ps)

end Componentry.Yaml
