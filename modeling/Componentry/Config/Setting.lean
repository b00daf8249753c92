import Componentry.Text.Casing
import Componentry.Yaml.Scalar

/-!
# Settings

A setting has a group and a key within it. Its value is looked for in several places, and the first
that has one decides: a flag of the command line, an environment variable, the configuration file,
the default. Keys in the file may be written in small or capital letters, and a group and a key may
also be written as one key with a dot.

A variable that stands for a whole group hides what the file and the defaults say about its
settings. A group without a value in the file hides the variables of its settings.
-/

namespace Componentry

inductive Setting where
  | space | module | components | hook | hookInterface | argsField | style | format | directory
  | compress | level | development
  deriving DecidableEq, Repr

namespace Setting

def all : List Setting :=
  [.space, .module, .components, .hook, .hookInterface, .argsField, .style, .format, .directory,
    .compress, .level, .development]

def group : Setting → String
  | .space => "metadata"
  | .module | .components => "runtime"
  | .hook | .hookInterface | .argsField => "lifecycle"
  | .style => "identity"
  | .format | .directory | .compress => "output"
  | .level | .development => "log"

/-- The key of a setting in its group. -/
def key : Setting → String
  | .space => "prefix"
  | .module => "module"
  | .components => "components"
  | .hook => "hook"
  | .hookInterface => "interface"
  | .argsField => "args_field"
  | .style => "style"
  | .format => "format"
  | .directory => "dir"
  | .compress => "compress"
  | .level => "level"
  | .development => "development"

/-- The full name of a setting. -/
def name (s : Setting) : String := s.group ++ "." ++ s.key

/-- The environment variable of a whole group. -/
def groupVariable (s : Setting) : String := "FLAMEKIT_" ++ Text.upper s.group

/-- The environment variable of a setting. -/
def variableName (s : Setting) : String := s.groupVariable ++ "_" ++ Text.upper s.key

end Setting

/-- The places where values are looked for, besides the defaults. -/
structure Layers where
  flags : List (Setting × String)
  environment : List (String × String)
  /-- The entries of the configuration file. -/
  file : List (Yaml.Node × Yaml.Node)

/-- What is said about a setting. -/
inductive Given where
  /-- A text of the command line or of the environment. -/
  | text (value : String)
  /-- A value of the file. -/
  | node (value : Yaml.Node)
  /-- The setting is hidden and has no value at all. -/
  | hidden
  /-- Nothing is said. -/
  | nothing

namespace Layers

/-- The value of a variable; an empty one counts as not set. -/
def valueOf? (l : Layers) (name : String) : Option String :=
  (l.environment.lookup name).filter (· ≠ "")

/-- The value under a key, whatever the case of its letters. -/
def under? (entries : List (Yaml.Node × Yaml.Node)) (key : String) : Option Yaml.Node :=
  (entries.find? fun
    | (.scalar _ _ k, _) => Text.lower k = key
    | _ => false).map (·.2)

/-- A value that stands for something. -/
def nonNull (node? : Option Yaml.Node) : Option Yaml.Node := node?.filter (!·.isNull)

/-- What the file says about a setting. -/
def inFile? (l : Layers) (s : Setting) : Option Yaml.Node :=
  (nonNull (under? l.file s.name)).or <|
    match under? l.file s.group with
    | some (.mapping _ entries) => nonNull (under? entries s.key)
    | _ => none

/-- The file has the group of a setting without a value. -/
def emptyGroup (l : Layers) (s : Setting) : Bool :=
  match under? l.file s.group with
  | some node => node.isNull
  | none => false

/-- What is said about a setting. -/
def find (l : Layers) (s : Setting) : Given :=
  match l.flags.lookup s with
  | some value => .text value
  | none =>
    if l.emptyGroup s then .nothing
    else match l.valueOf? s.variableName with
      | some value => .text value
      | none =>
        if (l.valueOf? s.groupVariable).isSome then .hidden
        else match l.inFile? s with
          | some node => .node node
          | none => .nothing

end Layers

end Componentry
