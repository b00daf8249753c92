import Componentry.Command.Output

/-!
# Running again after changes

A watch remembers what it read and what it wrote. When one of its files has changed the program is
transformed again, under the configuration as it is then.
-/

namespace Componentry

/-- A command that goes on running. -/
structure Watch where
  colors : Bool
  arguments : Arguments
  program : String
  /-- The files to look at. -/
  files : List String
  inputs : Cache
  outputs : Cache
  /-- How long nothing may change before a run, in milliseconds. -/
  delay : Int

def watchFlags : List Flag := emissionFlags ++ [{ name := "delay", kind := .number }]

/-- The delay that a command line gives. -/
def watchDelay (a : Arguments) : Int :=
  match (a.value? "delay").map wholeNumber with
  | some (.ok n) => if n ≤ 0 then 100 else n
  | _ => 100

section

variable {m : Type → Type} [Monad m] [Host m]

/-- Transform a program once, and remember how to go on. A failure that has been told already does
not end the watch. -/
def startWatch (colors : Bool) (a : Arguments) (program : String) : Outcome m Watch := do
  let s ← startSession colors a
  let config? ← configAbove? (m := m) (configDirectory a)
  let files := program :: config?.toList
  let (_, _, inputs) ← Cache.refresh (m := m) Cache.empty false files
  let (result, outputs) ← s.writeProgram (m := m) (some Cache.empty) program
  match result with
  | .ok () | .error .reported => pure ()
  | .error e => throw e
  Host.say (m := m) .note ((Message.info "Watching for changes (Ctrl+C to stop)").text s.colors)
  return { colors, arguments := a, program, files, inputs, outputs := outputs.getD Cache.empty
           delay := watchDelay a }

/-- Some files may have changed: if they have, transform the program again. -/
def Watch.react (w : Watch) : m (Except CommandFailure Unit × Watch) := do
  let (changed, unread, inputs) ← Cache.refresh (m := m) w.inputs false w.files
  let w := { w with inputs }
  if !changed && unread.isNone then return (.ok (), w)
  match ← (startSession (m := m) w.colors w.arguments).run with
  | .error e => return (.error e, w)
  | .ok s =>
    let (result, outputs) ← s.writeProgram (m := m) (some w.outputs) w.program
    return (result, { w with outputs := outputs.getD w.outputs })

end

end Componentry
