import Componentry.Command.Session
import Componentry.Yaml.Written

/-!
# Making a configuration file

The answers to a few questions, or their defaults, are written to a configuration file, which is
then read again like any other.
-/

namespace Componentry

/-- The settings of a new configuration file. -/
structure NewConfig where
  space : String := "flamework"
  module : String := defaultModule
  style : String := "path"
  format : String := "text"
  directory : String := defaultOutputDirectory

def NewConfig.text (c : NewConfig) : String :=
  Yaml.groups
    [("metadata", [("prefix", c.space)]), ("runtime", [("module", c.module)]),
     ("identity", [("style", c.style)]), ("output", [("format", c.format), ("dir", c.directory)])]

def initFlags : List Flag :=
  [{ name := "yes", letter := some 'y', kind := .switch }, { name := "force", kind := .switch }]

section

variable {m : Type → Type} [Monad m] [Host m]

/-- The answer to a question. -/
def answer (q : Question) : Outcome m String := do
  match ← Host.ask (m := m) q with
  | some a => return a
  | none => throw .aborted

/-- A configuration from the answers to questions. -/
def askConfig (c : NewConfig) : Outcome m NewConfig := do
  let space ← answer ⟨"Metadata key prefix:", c.space, []⟩
  let module ← answer ⟨"Component runtime module:", c.module, []⟩
  let style ← answer ⟨"Identifier style:", c.style, ["path", "hashed"]⟩
  let format ← answer ⟨"Output format:", c.format, ["text", "json"]⟩
  let directory ← answer ⟨"Output directory:", c.directory, []⟩
  return { space, module, style, format, directory }

def makeConfig (colors : Bool) (a : Arguments) : Outcome m Unit := do
  let colors := colors && !a.isOn "no-color"
  let dir := configDirectory a
  let path := Path.join [dir, "flamekit.yaml"]
  if (← Host.kind? (m := m) path).isSome && !a.isOn "force" then
    complain colors
      { level := .error, context := "config exists", problem := path ++ " already exists."
        help := ["Overwrite it: flamekit init --force"] }
  let config ← if a.isOn "yes" then pure {} else askConfig {}
  match ← Host.makeDirectories (m := m) dir with
  | .error e => throw (.noConfigDirectory e)
  | .ok () => pure ()
  match ← Host.write (m := m) path (Text.utf8 config.text) with
  | .error e => throw (.unwrittenConfig e)
  | .ok () => pure ()
  match ← loadConfig (m := m) dir [] with
  | .error e => complain colors (.badConfig e.message)
  | .ok _ => Host.say (m := m) .result (successText colors ("Created " ++ path))

end

end Componentry
