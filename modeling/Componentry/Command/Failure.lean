import Componentry.Command.Argument
import Componentry.Host.File
import Componentry.Json.Reader
import Componentry.Reflection

/-!
# Why commands fail
-/

namespace Componentry

inductive CommandFailure where
  /-- The reason has been told already. -/
  | reported
  | usage (e : UsageError)
  | unknownLevel (name : String)
  | unreadableProgram (e : FileError)
  | noDirectory (path : String) (e : FileError)
  | unwritten (path : String) (e : FileError)
  | noConfigDirectory (e : FileError)
  | unwrittenConfig (e : FileError)
  | badValue (e : Json.ReadError)
  | refused (es : List ReflectionError)
  /-- No one answered a question. -/
  | aborted
  /-- The types of the program never end. -/
  | endless

def CommandFailure.message : CommandFailure → String
  | .reported => "transform failed"
  | .usage e => e.message
  | .unknownLevel name =>
    "invalid log.level " ++ Text.quote name ++ ": unrecognized level: " ++ Text.quote name
  | .unreadableProgram e => "failed to read program description: " ++ e.message
  | .noDirectory path e => "failed to create directory " ++ path ++ ": " ++ e.message
  | .unwritten path e => "failed to write " ++ path ++ ": " ++ e.message
  | .noConfigDirectory e => "failed to create config directory: " ++ e.message
  | .unwrittenConfig e => "failed to write config: " ++ e.message
  | .badValue e => "invalid --value: " ++ e.message
  | .refused es => Reflection.describeErrors es
  | .aborted => "init aborted"
  | .endless => "type resolution did not end"

end Componentry
