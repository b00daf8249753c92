import Componentry.Command.Failure
import Componentry.Config.Load
import Componentry.Console.Message

/-!
# Sessions

A session is what a command works with: a configuration, and whether texts are coloured. The
configuration is that of the nearest directory with a configuration file, at or above the one the
command line names.
-/

namespace Componentry

/-- What a command works with. -/
structure CommandSession where
  config : Config
  colors : Bool

/-- The result of a command on a host. -/
abbrev Outcome (m : Type → Type) := ExceptT CommandFailure m

/-- The flags that every command has. -/
def sharedFlags : List Flag :=
  [{ name := "config-dir", kind := .text },
   { name := "verbose", letter := some 'v', kind := .switch },
   { name := "no-color", kind := .switch }]

/-- The flags that say how results are written. -/
def emissionFlags : List Flag :=
  [{ name := "format", kind := .text }, { name := "out", kind := .text },
   { name := "compress", kind := .switch }]

/-- The names of the levels of log lines. -/
def logLevels : List String := ["debug", "info", "warn", "error", "dpanic", "panic", "fatal"]

/-- The name is that of a level. -/
def isLogLevel (name : String) : Bool := name = "" || logLevels.contains (Text.lower name)

/-- The settings that flags of the command line give. -/
def flagSettings (a : Arguments) : List (Setting × String) :=
  [(.format, "format"), (.directory, "out"), (.compress, "compress")].filterMap
    fun (s, name) => (a.value? name).map fun v => (s, v)

section

variable {m : Type → Type} [Monad m] [Host m]

/-- Tell a message, and fail. -/
def complain {α : Type} (colors : Bool) (message : Message) : Outcome m α := do
  Host.say (m := m) .complaint (message.text colors)
  throw .reported

/-- The directory that the command line names. -/
def configDirectory (a : Arguments) : String := (a.value? "config-dir").getD "."

/-- The session of a command line. -/
def startSession (colors : Bool) (a : Arguments) : Outcome m CommandSession := do
  let colors := colors && !a.isOn "no-color"
  let start := configDirectory a
  let dir := ((← configAbove? (m := m) start).map Path.dir).getD start
  match ← loadConfig (m := m) dir (flagSettings a) with
  | .error e => complain colors (.badConfig e.message)
  | .ok config =>
    if !a.isOn "verbose" && !config.development && !isLogLevel config.level then
      throw (.unknownLevel config.level)
    return ⟨config, colors⟩

namespace CommandSession

/-- Tell a diagnostic, and fail. -/
def report {α : Type} (s : CommandSession) (d : Diagnostic) : Outcome m α :=
  complain s.colors d.toMessage

/-- What becomes of the program in a file. -/
def transform (s : CommandSession) (path : String) : Outcome m UnitOutput := do
  let module := if s.config.module = "" then defaultModule else s.config.module
  match ← Host.read (m := m) path with
  | .error e => throw (.unreadableProgram e)
  | .ok bytes =>
    match loadProgram module path (Text.decode bytes) with
    | .error d => s.report d
    | .ok p =>
      match transform? p s.config.options with
      | none => throw .endless
      | some o =>
        match o.error with
        | some d => s.report d
        | none => return o

end CommandSession

end

end Componentry
