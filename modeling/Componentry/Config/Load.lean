import Componentry.Config.Setting
import Componentry.Host.Basic
import Componentry.Program.Load
import Componentry.Text.Path
import Componentry.Text.Truth
import Componentry.Unit
import Componentry.Yaml.Decode
import Componentry.Yaml.Reader

/-!
# Configurations

A configuration gives a value to every setting. Values of the file that are no texts are taken by
what they say: a whole number as its digits, a truth value as `1` or `0`. A list may be written as
one text with commas between the items.
-/

namespace Componentry

/-- How results are written. -/
inductive OutputFormat where
  | text | json
  deriving DecidableEq, Repr

structure Config where
  space : String
  module : String
  components : List String
  hook : String
  hookInterface : String
  argsField : String
  /-- The name of the style of identifiers, as it is written. -/
  styleName : String
  style : IdStyle
  format : OutputFormat
  directory : String
  compress : Bool
  level : String
  development : Bool

def OutputFormat.name : OutputFormat → String
  | .text => "text"
  | .json => "json"

/-- Why there is no configuration. -/
inductive ConfigError where
  | unreadable (e : FileError)
  | malformed (e : Yaml.Failure)
  | notFlag (s : Setting)
  | notText (s : Setting)
  | emptySpace
  | spaceWithColon (got : String)
  | unknownStyle (got : String)
  | unknownFormat (got : String)
  | notIdentifier (s : Setting) (got : String)
  | noComponents
  deriving DecidableEq, Repr

/-- The heading of what is wrong with values. -/
def decodingFailed : String :=
  "failed to unmarshal config: decoding failed due to the following error(s):\n\n"

def ConfigError.message : ConfigError → String
  | .unreadable e => "failed to read config file: " ++ e.message
  | .malformed e => "failed to read config file: While parsing config: " ++ e.message
  | .notFlag s =>
    decodingFailed ++ "'" ++ s.name ++
      "' cannot parse value as 'bool': strconv.ParseBool: invalid syntax"
  | .notText s => decodingFailed ++ "'" ++ s.name ++ "' expected type 'string'"
  | .emptySpace => "metadata.prefix must not be empty"
  | .spaceWithColon got => "metadata.prefix must not contain ':', got: " ++ got
  | .unknownStyle got => "identity.style: " ++ IdStyle.unknownMessage got
  | .unknownFormat got => "output.format must be \"text\" or \"json\", got: " ++ got
  | .notIdentifier s got => s.name ++ " must be an identifier, got: " ++ Text.quote got
  | .noComponents => "runtime.components must name at least one annotation"

/-! ## Values -/

def scalarText? (style : Yaml.Style) (value : String) : Option String :=
  let digits := value.toList.filter (· ≠ '_')
  match Yaml.tagOf style value with
  | .str | .merge => some value
  | .null => some ""
  | .bool => (Yaml.boolOf? value).map fun b => if b then "1" else "0"
  | .int => (Yaml.intOf? digits).map toString
  | .float =>
    ((Yaml.specialFloatOf? value).or (Yaml.floatOf? digits)).map Number.Layout.positional.text
  | .timestamp => none

def nodeText? : Yaml.Node → Option String
  | .scalar _ style value => scalarText? style value
  | _ => none

/-- The truth value of a node. -/
def nodeFlag? : Yaml.Node → Option Bool
  | .scalar _ style value =>
    match Yaml.tagOf style value with
    | .str => if value = "" then some false else Text.truthOf? value
    | .bool => Yaml.boolOf? value
    | .null => some false
    | .int => (Yaml.intOf? (value.toList.filter (· ≠ '_'))).map (· ≠ 0)
    | _ => none
  | _ => none

/-- The items of a text with commas between them. -/
def commaList (s : String) : List String := if s = "" then [] else s.splitOn ","

namespace Layers

def text (l : Layers) (s : Setting) (default : String) : Except ConfigError String :=
  match l.find s with
  | .text value => .ok value
  | .node node => (nodeText? node).elim (.error (.notText s)) .ok
  | .hidden => .ok ""
  | .nothing => .ok default

/-- The truth value of a setting. -/
def flag (l : Layers) (s : Setting) (default : Bool) : Except ConfigError Bool :=
  match l.find s with
  | .text value => (Text.truthOf? value).elim (.error (.notFlag s)) .ok
  | .node node => (nodeFlag? node).elim (.error (.notFlag s)) .ok
  | .hidden => .ok false
  | .nothing => .ok default

/-- The list of texts of a setting. -/
def list (l : Layers) (s : Setting) (default : List String) : Except ConfigError (List String) :=
  match l.find s with
  | .text value => .ok (commaList value)
  | .node (.sequence _ items) =>
    items.mapM fun item => (nodeText? item).elim (.error (.notText s)) .ok
  | .node (.mapping _ _) => .error (.notText s)
  | .node (.scalar _ style value) =>
    match scalarText? style value with
    | some t => .ok (if Yaml.tagOf style value = .str then commaList t else [t])
    | none => .error (.notText s)
  | .hidden => .ok []
  | .nothing => .ok default

end Layers

/-! ## Checking -/

/-- A name that can be used in a program. -/
def identifier (s : Setting) (name : String) : Except ConfigError Unit :=
  if Text.isIdentifier name then .ok () else .error (.notIdentifier s name)

def OutputFormat.ofName? (name : String) : Option OutputFormat :=
  [OutputFormat.text, .json].find? (·.name == name)

/-- Where files are written unless something else is said. -/
def defaultOutputDirectory : String := "build/flamekit"

/-- The configuration that the layers give, if it can be used. -/
def Config.ofLayers (l : Layers) : Except ConfigError Config := do
  let space ← l.text .space "flamework"
  let module ← l.text .module defaultModule
  let components ← l.list .components ["Component"]
  let hook ← l.text .hook "onStart"
  let hookInterface ← l.text .hookInterface "OnStart"
  let argsField ← l.text .argsField "__constructorArgs"
  let styleName ← l.text .style "path"
  let formatName ← l.text .format "text"
  let directory ← l.text .directory defaultOutputDirectory
  let compress ← l.flag .compress false
  let level ← l.text .level "info"
  let development ← l.flag .development false
  if space = "" then throw .emptySpace
  if space.toList.contains ':' then throw (.spaceWithColon space)
  let some style := IdStyle.ofName? styleName | throw (.unknownStyle styleName)
  let some format := OutputFormat.ofName? formatName | throw (.unknownFormat formatName)
  identifier .hook hook
  identifier .hookInterface hookInterface
  identifier .argsField argsField
  if components.isEmpty then throw .noComponents
  return { space, module, components, hook, hookInterface, argsField, styleName, style, format
           directory, compress, level, development }

/-- The options of a transformation under a configuration. -/
def Config.options (c : Config) : TransformOptions :=
  { metadata :=
      { space := c.space, hook := c.hook, hookInterface := c.hookInterface
        components := c.components }
    lifecycle := { hook := c.hook, argsField := c.argsField }
    style := c.style }

/-- A configuration as a JSON document, by the full names of the settings. -/
def Config.toJson (c : Config) : Json :=
  let value : Setting → Json
    | .space => .text c.space
    | .module => .text c.module
    | .components => .list (c.components.map .text)
    | .hook => .text c.hook
    | .hookInterface => .text c.hookInterface
    | .argsField => .text c.argsField
    | .style => .text c.styleName
    | .format => .text c.format.name
    | .directory => .text c.directory
    | .compress => .bool c.compress
    | .level => .text c.level
    | .development => .bool c.development
  .object (Setting.all.map fun s => (s.name, value s))

/-! ## Files -/

/-- The entries of the text of a configuration file. -/
def configEntries (text : String) : Except ConfigError (List (Yaml.Node × Yaml.Node)) :=
  match Yaml.parse text with
  | .error e => .error (.malformed (.malformed e.loc))
  | .ok none => .ok []
  | .ok (some node) =>
    if node.isNull then .ok []
    else match node with
      | .mapping _ entries =>
        match Yaml.repeatedKeys node with
        | [] => .ok entries
        | ps => .error (.malformed (.problems ps))
      | _ =>
        .error (.malformed (.problems [Yaml.mismatch "map[string]interface \x7b\x7d" node]))

/-- The names that a configuration file may have, in the order in which they are tried. -/
def configNames : List String :=
  (["json", "toml", "yaml", "yml", "properties", "props", "prop", "hcl", "tfvars", "dotenv", "env",
    "ini"].map ("flamekit." ++ ·)) ++ ["flamekit"]

section

variable {m : Type → Type} [Monad m] [Host m]

/-- The first of some paths at which a file stands. -/
def firstFile? : List String → m (Option String)
  | [] => return none
  | path :: paths => do
    match ← Host.kind? path with
    | some .file => return some path
    | _ => firstFile? paths

/-- The first of some paths at which anything stands. -/
def firstPath? : List String → m (Option String)
  | [] => return none
  | path :: paths => do
    match ← Host.kind? path with
    | some _ => return some path
    | none => firstPath? paths

/-- A directory and the directories above it. -/
def upwards : Nat → String → List String
  | 0, _ => []
  | n + 1, dir => dir :: if Path.dir dir = dir then [] else upwards n (Path.dir dir)

/-- The path of the nearest configuration file in a directory or above it. -/
def configAbove? (dir : String) : m (Option String) :=
  firstPath? ((upwards (dir.length + 2) dir).flatMap fun d =>
    [Path.join [d, "flamekit.yaml"], Path.join [d, "flamekit.yml"]])

/-- The wording if there is no configuration file. -/
def noConfigMessage : String := "no flamekit.yaml found"

/-- The entries of the configuration file of a directory; none if there is no file. -/
def readConfig (dir : String) : m (Except ConfigError (List (Yaml.Node × Yaml.Node))) := do
  let paths := if dir = "" then [] else configNames.map fun n => Path.join [dir, n]
  match ← firstFile? paths with
  | none => return .ok []
  | some path =>
    match ← Host.read path with
    | .error e => return .error (.unreadable e)
    | .ok bytes => return configEntries (Text.decode bytes)

/-- The environment variables of settings. -/
def readVariables : List String → m (List (String × String))
  | [] => return []
  | name :: names => do
    let value ← Host.environment? name
    let rest ← readVariables names
    return (value.map fun v => (name, v)).toList ++ rest

/-- The configuration in a directory, with flags of the command line. -/
def loadConfig (dir : String) (flags : List (Setting × String)) :
    m (Except ConfigError Config) := do
  let environment ← readVariables
    (Setting.all.flatMap fun s => [s.variableName, s.groupVariable])
  match ← readConfig dir with
  | .error e => return .error e
  | .ok file => return Config.ofLayers ⟨flags, environment, file⟩

end

end Componentry
