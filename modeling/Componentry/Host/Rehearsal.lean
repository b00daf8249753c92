import Componentry.Host.Basic
import Componentry.Host.Directory

/-!
# A host that is a value

Everything that a command does in a rehearsal can be seen afterwards: the directory as it is then,
and what was written on the channels. Time passes whenever someone looks at the clock. There is no
one to ask.
-/

namespace Componentry

/-- A host that is a value. -/
structure Rehearsal where
  directory : Directory
  environment : List (String × String)
  time : Time
  said : List (Channel × String)

namespace Rehearsal

/-- A rehearsal in which nothing has happened. -/
def start (directory : Directory) (environment : List (String × String)) : Rehearsal :=
  ⟨directory, environment, 0, []⟩

/-- All that was written on some channels, in order. -/
def heard (s : Rehearsal) (channels : List Channel) : String :=
  String.join ((s.said.filter fun e => channels.contains e.1).map (·.2))

/-- Act on the directory. -/
def change (act : Directory → Except FileError Directory) :
    StateM Rehearsal (Except FileError Unit) :=
  modifyGet fun s =>
    match act s.directory with
    | .ok directory => (.ok (), { s with directory })
    | .error e => (.error e, s)

end Rehearsal

instance : Host (StateM Rehearsal) where
  kind? path := do return (← get).directory.kind? path
  read path := do return (← get).directory.read path
  write path content := Rehearsal.change (·.write path content)
  makeDirectory path := Rehearsal.change (·.makeDirectory path)
  environment? name := do return (← get).environment.lookup name
  now := modifyGet fun s => (s.time, { s with time := s.time + 1 })
  say channel text := modify fun s => { s with said := s.said ++ [(channel, text)] }
  ask _ := return none

end Componentry
