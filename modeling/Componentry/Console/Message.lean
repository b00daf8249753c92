import Componentry.Console.Style
import Componentry.Diagnostic
import Componentry.Text.Casing

/-!
# Messages

A message says what happened, in what context, and what can be done. Errors are red, warnings
yellow, other messages cyan. Diagnostics are shown as messages.
-/

namespace Componentry

/-- How serious a message is. -/
inductive Level where
  | error | warning | info
  deriving DecidableEq, Repr, Inhabited

def Level.color : Level → Attribute
  | .error => .red
  | .warning => .yellow
  | .info => .cyan

/-- The sign in front of a message. -/
def Level.symbol : Level → String
  | .error => "❌"
  | .warning => "⚠️"
  | .info => "ℹ️"

/-- A message. Parts that are empty are left out. -/
structure Message where
  level : Level
  context : String := ""
  problem : String
  detail : String := ""
  suggestions : List String := []
  help : List String := []

namespace Message

/-- A line below the heading. -/
def bodyLine (style : Style) (colors : Bool) (text : String) : String :=
  style.span colors ("   " ++ text ++ "\n")

/-- A message as text: a heading, then paragraphs with an empty line before each. -/
def text (colors : Bool) (m : Message) : String :=
  let heading (s : String) : String :=
    Style.span [m.level.color, .bold] colors (m.level.symbol ++ " " ++ s ++ "\n")
  let top :=
    if m.context = "" then heading m.problem
    else heading (Text.upper m.context) ++ bodyLine [m.level.color] colors m.problem
  let detail := if m.detail = "" then "" else "\n" ++ bodyLine [m.level.color] colors m.detail
  let suggestions :=
    if m.suggestions.isEmpty then ""
    else "\n" ++ bodyLine [.yellow] colors
      ("Did you mean: " ++ String.intercalate ", " m.suggestions ++ "?")
  let help :=
    if m.help.isEmpty then ""
    else "\n" ++ String.join (m.help.map fun h => bodyLine [.cyan] colors ("→ " ++ h))
  top ++ detail ++ suggestions ++ help

/-- A class that does not exist. -/
def classNotFound (name program : String) (suggestions : List String) : Message :=
  { level := .error, context := "class not found"
    problem := "Cannot find class '" ++ name ++ "'.", suggestions
    help := ["List classes: flamekit inspect " ++ program] }

/-- A configuration that cannot be used. -/
def badConfig (problem : String) : Message :=
  { level := .error, context := "configuration error", problem
    help := ["View config: cat flamekit.yaml", "Recreate it: flamekit init"] }

/-- A warning without a context. -/
def warning (problem : String) : Message := { level := .warning, problem }

/-- A notice without a context. -/
def info (problem : String) : Message := { level := .info, problem }

end Message

def Diagnostic.toMessage (d : Diagnostic) : Message :=
  { level := if d.isFatal then .error else .warning
    context := d.kind ++ " [" ++ d.code ++ "]"
    problem := d.messageInClass
    detail := "at " ++ d.fileShown ++ ":" ++ d.loc.text
    help := if d.suggestion = "" then [] else [d.suggestion] }

/-- Diagnostics as messages, errors before the others. -/
def diagnosticsText (colors : Bool) (ds : List Diagnostic) : String :=
  let shown (ds : List Diagnostic) : String := String.join (ds.map fun d => d.toMessage.text colors)
  shown (ds.filter (·.isFatal)) ++ shown (ds.filter (!·.isFatal))

/-- The line that reports a success. -/
def successText (colors : Bool) (message : String) : String :=
  Style.wrap [.green, .bold] colors ("✓ " ++ message) ++ "\n"

/-- What a finished run reports. -/
structure Summary where
  classes : Int
  hooked : Int
  guards : Int
  warnings : Int
  files : List String

/-- The report of a finished run: its counts, and the files it wrote. -/
def Summary.text (colors : Bool) (s : Summary) : String :=
  successText colors
      ("Transformed " ++ toString s.classes ++ " class(es): " ++ toString s.hooked ++
        " rewritten, " ++ toString s.guards ++ " guard(s)") ++
    (if s.warnings > 0 then
        (Message.warning (toString s.warnings ++ " guard(s) accept any value")).text colors
      else "") ++
    String.join (s.files.map fun f => "  " ++ f ++ "\n")

end Componentry
