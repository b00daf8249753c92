import Componentry.Command.Init
import Componentry.Command.Inspect
import Componentry.Command.Watch

/-!
# Running a command line

The first plain argument names the command, the rest is read with the flags of that command and the
flags that every command has. Without a command, or with `--help`, an overview is shown.
-/

namespace Componentry

/-- The commands. -/
inductive Command where
  | version | transform | inspect | watch | init
  deriving DecidableEq, Repr

namespace Command

def all : List Command := [version, transform, inspect, watch, init]

def name : Command → String
  | .version => "version"
  | .transform => "transform"
  | .inspect => "inspect"
  | .watch => "watch"
  | .init => "init"

/-- The flags of a command of its own. -/
def ownFlags : Command → List Flag
  | .version => []
  | .transform => emissionFlags ++ [{ name := "stdout", kind := .switch }]
  | .inspect => inspectFlags
  | .watch => watchFlags
  | .init => initFlags

end Command

/-- The flag that asks for an overview. -/
def helpFlag : Flag := { name := "help", letter := some 'h', kind := .switch }

def programName : String := "flamekit"

/-- Names that show the overview, like no command at all. -/
def helpNames : List String := ["help", "completion"]

/-- What a command line asks for. -/
inductive Request where
  | overview
  | run (command : Command) (arguments : Arguments)

/-- The command that a command line names, with the other arguments. -/
def findCommand (args : List String) : Except UsageError (Option Command × List String) :=
  match plainArguments sharedFlags args with
  | [] => .ok (none, args)
  | name :: _ =>
    match Command.all.find? (·.name == name) with
    | some c => .ok (some c, withoutFirst sharedFlags name args)
    | none =>
      if helpNames.contains name then .ok (none, [])
      else
        .error (.unknownCommand name programName
          (similarCommands (Command.all.map Command.name ++ ["completion"]) name))

/-- The plain arguments fit the command. -/
def checkCount (c : Command) (a : Arguments) : Except UsageError Unit :=
  match c with
  | .version => .ok ()
  | .init =>
    match a.plain with
    | [] => .ok ()
    | first :: _ => .error (.unknownCommand first (programName ++ " " ++ c.name) [])
  | _ => if a.plain.length = 1 then .ok () else .error (.argumentCount 1 a.plain.length)

def readRequest (args : List String) : Except UsageError Request := do
  let (command, rest) ← findCommand args
  let own := (command.map Command.ownFlags).getD []
  let a ← readArguments (own ++ sharedFlags ++ [helpFlag]) rest
  match command with
  | none => return .overview
  | some c =>
    if a.isOn "help" then return .overview
    checkCount c a
    return .run c a

/-- What is known about the program itself. -/
structure BuildInfo where
  version : String := "dev"
  commit : String := "unknown"
  date : String := "unknown"
  toolchain : String := "unknown"

/-- What is known about the program, as a table. -/
def BuildInfo.text (colors : Bool) (b : BuildInfo) : String :=
  tableText colors
    [("flamekit version", b.version), ("Git commit", b.commit), ("Build date", b.date),
     ("Go version", b.toolchain)]

/-- The overview of the commands. -/
def overviewText : String :=
  "flamekit - component metadata transformer\n\nUsage:\n  flamekit [command]\n\n" ++
    "Available Commands:\n" ++ String.join (Command.all.map fun c => "  " ++ c.name ++ "\n")

section

variable {m : Type → Type} [Monad m] [Host m]

/-- Run a command line. The result is present if the command goes on running. -/
def runCommand (b : BuildInfo) (colors : Bool) (args : List String) : Outcome m (Option Watch) := do
  match readRequest args with
  | .error e => throw (.usage e)
  | .ok .overview =>
    Host.say (m := m) .result overviewText
    return none
  | .ok (.run command a) =>
    let program := a.plain.headD ""
    match command with
    | .version =>
      Host.say (m := m) .result (b.text colors)
      return none
    | .transform =>
      let s ← startSession colors a
      if a.isOn "stdout" then s.printProgram program
      else
        let (result, _) ← s.writeProgram (m := m) none program
        ExceptT.mk (pure result)
      return none
    | .inspect =>
      let s ← startSession colors a
      s.inspect a program
      return none
    | .watch => return some (← startWatch colors a program)
    | .init =>
      makeConfig colors a
      return none

/-- Tell a failure that has not been told yet. -/
def tellFailure (colors : Bool) : CommandFailure → m Unit
  | .reported => return
  | e => Host.say .complaint (Style.span [.red, .bold] colors ("Error: " ++ e.message ++ "\n"))

/-- Run a command line and tell its failure. -/
def executeCommand (b : BuildInfo) (colors : Bool) (args : List String) :
    m (Except CommandFailure (Option Watch)) := do
  let result ← (runCommand (m := m) b colors args).run
  match result with
  | .ok _ => pure ()
  | .error e => tellFailure colors e
  return result

end

end Componentry
