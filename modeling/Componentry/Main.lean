import Componentry.Command.Run
import Componentry.Debounce

/-!
# The program

The machine as a host, and the loop of a command that goes on running.
-/

namespace Componentry.Machine

/-- The number of an error of the system, which is also given with its sign turned. -/
def errorNumber (code : UInt32) : Nat := min code.toNat (0 - code).toNat

/-- Why an action on a file failed. Where one kind of error stands for several causes, its number
tells them apart. -/
def causeOf (e : IO.Error) : FileCause :=
  match e with
  | .noFileOrDirectory .. => .missing
  | .alreadyExists .. => .exists
  | .inappropriateType _ code _ =>
    match errorNumber code with
    | 20 => .notDirectory
    | 21 => .isDirectory
    | _ => .other (toString e)
  | .invalidArgument _ code _ =>
    match errorNumber code with
    | 22 => .notPath
    | 36 => .tooLong
    | _ => .other (toString e)
  | _ => .other (toString e)

/-- The path can be opened. -/
def opens (path : String) : IO Bool := do
  try
    let _ ← IO.FS.Handle.mk path .read
    return true
  catch _ => return false

/-- What stands at a path, if it can be opened. Only a directory has itself as an entry. -/
def kind? (path : String) : IO (Option EntryKind) := do
  if path = "" then return none
  else if ← opens (path ++ "/.") then return some .directory
  else if ← opens path then return some .file
  else return none

/-- Try an action on a file. -/
def attempt {α : Type} (action : FileAction) (path : String) (act : IO α) :
    IO (Except FileError α) := do
  try return .ok (← act)
  catch e => return .error ⟨action, path, causeOf e⟩

/-- A line of the input, without its end; none at the end of the input. -/
def readLine : IO (Option String) := do
  let line ← (← IO.getStdin).getLine
  return if line.isEmpty then none else some (String.ofList (line.toList.filter (· ≠ '\n')))

/-- Ask until the answer is one of the options. -/
partial def ask (q : Question) : IO (Option String) := do
  let out ← IO.getStderr
  let options := if q.options.isEmpty then "" else " [" ++ String.intercalate ", " q.options ++ "]"
  out.putStr (q.text ++ options ++ " (" ++ q.default ++ ") ")
  out.flush
  match ← readLine with
  | none => return none
  | some "" => return some q.default
  | some answer =>
    if q.options.isEmpty || q.options.contains answer then return some answer else ask q

instance : Host IO where
  kind? := kind?
  read path := do
    match ← kind? path with
    | some .directory => return .error ⟨.read, path, .isDirectory⟩
    | _ => attempt .open path do return (← IO.FS.readBinFile path).toList
  write path content := do
    match ← kind? path with
    | some .directory => return .error ⟨.open, path, .isDirectory⟩
    | _ => attempt .open path (IO.FS.writeBinFile path ⟨content.toArray⟩)
  makeDirectory path := attempt .makeDirectory path (IO.FS.createDir path)
  environment? name := IO.getEnv name
  now := do return (← IO.monoNanosNow)
  say channel text := do
    let out ← if channel = .result then IO.getStdout else IO.getStderr
    out.putStr text
    out.flush
  ask := ask

/-- The files whose content is not as it was seen last. -/
def changedFiles (seen : Cache) : List String → IO (List String × Cache)
  | [] => return ([], seen)
  | path :: paths => do
    let digest := match ← Cache.fileDigest (m := IO) path with
      | .ok d => d
      | .error _ => ""
    let (differs, seen) := seen.changed (← Host.now (m := IO)) path digest
    let (more, seen) ← changedFiles seen paths
    return (if differs then path :: more else more, seen)

/-- Look at the files again and again. Changes are waited out and then acted on. -/
partial def watchLoop (w : Watch) (seen : Cache) (b : Burst) : IO Unit := do
  IO.sleep (UInt32.ofNat w.delay.toNat)
  let (changed, seen) ← changedFiles seen w.files
  if changed.isEmpty then
    match b.flush with
    | (none, b) => watchLoop w seen b
    | (some _, b) =>
      let (result, w) ← w.react (m := IO)
      if let .error e := result then tellFailure (m := IO) false e
      watchLoop w seen b
  else watchLoop w seen (changed.foldl Burst.add b)

/-- Texts are coloured on a terminal, unless the environment says otherwise. -/
def wantsColors : IO Bool := do
  let quiet := ((← IO.getEnv "NO_COLOR").getD "") ≠ "" || (← IO.getEnv "TERM") = some "dumb"
  return !quiet && (← (← IO.getStdout).isTty)

end Componentry.Machine

open Componentry in
def main (args : List String) : IO UInt32 := do
  match ← executeCommand (m := IO) {} (← Machine.wantsColors) args with
  | .error _ => return 1
  | .ok none => return 0
  | .ok (some w) =>
    let (_, seen) ← Machine.changedFiles Cache.empty w.files
    Machine.watchLoop w seen Burst.empty
    return 0
