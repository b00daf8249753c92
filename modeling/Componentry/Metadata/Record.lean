import Componentry.Metadata.Config

/-!
# Metadata records

The records of a class, in the order in which they are registered: its identifier, whether it comes
from a dependency, the identifiers of what its constructor takes, of what it implements, of its
decorators, and the configuration of each decorator. A component implements the interface of the
lifecycle hook, whether it says so or not.
-/

namespace Componentry

/-- A record: its key and its value. -/
structure Record where
  key : String
  value : MetaValue

/-- Names that records and hooks go by. -/
structure MetadataOptions where
  /-- Stands before every key. -/
  space : String := ""
  hook : String := ""
  hookInterface : String := ""
  /-- Decorators that mark components besides those declared to. -/
  components : List String := []

/-- The options with names for those that are not given. -/
def MetadataOptions.complete (o : MetadataOptions) : MetadataOptions :=
  { o with
    space := if o.space = "" then "flamework" else o.space
    hook := if o.hook = "" then "onStart" else o.hook
    hookInterface := if o.hookInterface = "" then "OnStart" else o.hookInterface }

/-- The decorator marks a component. -/
def MetadataOptions.isComponent (o : MetadataOptions) (d : ResolvedDecoration) : Bool :=
  d.component || o.components.contains d.name

/-- A decorator of the class marks a component. -/
def MetadataOptions.hasComponent (o : MetadataOptions) (info : ClassDecorations) : Bool :=
  info.decorations.any o.isComponent

/-- The identifier of a declaration that a class refers to. -/
def uidFor (c : ClassDecl) (d : Declaration) : Work String :=
  Work.detail (fun e => { e with className := c.name }) (Work.compile fun _ => Compile.uid d)

/-- The declaration of a type that must be a plain reference. -/
def referenced (p : Program) (c : ClassDecl) (loc : Location) (subject : String) :
    Option TypeExpr → Except Diagnostic Declaration
  | some (.reference l name _) =>
    match p.resolve? (p.fileOf? c.decl) name with
    | some d => .ok d
    | none => .error (c.diagnostic l (.notFound name))
  | _ => .error (c.diagnostic loc (.expectedReference subject))

/-- The declarations that are named one after the other, with their identifiers. -/
def namedIds {α : Type} (c : ClassDecl) (named : α → Except Diagnostic Declaration) :
    List α → Work (List (Declaration × String))
  | [] => return []
  | a :: as => do
    let d ← Work.ofExcept (named a)
    let uid ← uidFor c d
    let rest ← namedIds c named as
    return (d, uid) :: rest

/-- The identifiers of the types of constructor parameters. -/
def dependencyIds (p : Program) (c : ClassDecl) (params : List Param) : Work (List MetaValue) := do
  let subject (param : Param) := "constructor parameter '" ++ param.name ++ "'"
  let named ← namedIds c (fun param => referenced p c param.loc (subject param) param.type) params
  return named.map (.text ·.2)

/-- The member is an instance method. -/
def Member.isInstanceMethod : Member → Bool
  | .method m => !m.static
  | _ => false

/-- The interface of the hook for a component that does not name it, with its identifier. -/
def hookId (p : Program) (o : MetadataOptions) (c : ClassDecl) (known : List Declaration) :
    Work (List MetaValue) := do
  match p.resolve? (p.fileOf? c.decl) o.hookInterface with
  | none => throw (c.diagnostic c.loc (.notFound o.hookInterface))
  | some hook =>
    if known.any (·.id == hook.id) then return []
    match c.member? o.hook with
    | some m =>
      if m.isInstanceMethod then return [.text (← uidFor c hook)]
      else throw (c.diagnostic m.loc (.collision o.hook))
    | none => return [.text (← uidFor c hook)]

/-- The identifiers of what a class implements. -/
def implementsIds (p : Program) (o : MetadataOptions) (c : ClassDecl) (info : ClassDecorations) :
    Work (List MetaValue) := do
  let named ← namedIds c (fun t => referenced p c t.loc "implements clause" (some t)) c.implemented
  let hook ← if o.hasComponent info then hookId p o c (named.map (·.1)) else pure []
  return named.map (.text ·.2) ++ hook

/-- The identifiers and configurations of the decorators that keep their arguments. -/
def decoratorConfigs (p : Program) (o : MetadataOptions) (c : ClassDecl) :
    List ResolvedDecoration → Work (List (String × MetaValue))
  | [] => return []
  | d :: ds => do
    if d.withNodes then
      let uid ← uidFor c d.decl
      let config ← decorationConfig p c d (o.isComponent d)
      let rest ← decoratorConfigs p o c ds
      return (uid, .object config) :: rest
    else decoratorConfigs p o c ds

/-- The first text that occurs twice. -/
def firstRepeated (seen : List String) : List String → Option String
  | [] => none
  | s :: ss => if seen.contains s then some s else firstRepeated (s :: seen) ss

/-- A list record, unless the list is empty. -/
def listRecord (name : String) (items : List MetaValue) : List (String × MetaValue) :=
  if items.isEmpty then [] else [(name, .list items)]

def classRecords (p : Program) (options : MetadataOptions) (c : ClassDecl)
    (info : ClassDecorations) : Work (List Record) := do
  let o := options.complete
  let uid ← uidFor c c.decl
  let deps ← dependencyIds p c ((c.constructor?.map (·.params)).getD [])
  let impls ← implementsIds p o c info
  let configs ← decoratorConfigs p o c info.decorations
  match firstRepeated [] (configs.map (·.1)) with
  | some twice =>
    throw (c.diagnostic c.loc (.invalid ("annotation " ++ twice ++ " is applied more than once")))
  | none =>
    let named : List (String × MetaValue) :=
      [("identifier", .text uid), ("isExternal", .flag info.external)] ++
        listRecord "dependencies" deps ++ listRecord "implements" impls ++
        listRecord "decorators" (configs.map fun e => .text e.1) ++
        configs.map fun e => ("decorators." ++ e.1, e.2)
    return named.map fun e => ⟨o.space ++ ":" ++ e.1, e.2⟩

end Componentry
