import Componentry.Cache
import Componentry.Command.Session
import Componentry.Emit.Document
import Componentry.Emit.Text
import Componentry.Gzip.Member

/-!
# Writing results

Results are printed or written to files: one file for each source, or one document for all, which
may be compressed. A command that goes on running remembers what it wrote and skips files whose
content would stay the same; a file that could not be written is forgotten, so that it is tried
again.
-/

namespace Componentry

/-- A file to write. -/
structure OutputFile where
  path : String
  content : Bytes
  compress : Bool

/-- The bytes that end up in the file, which may be packed. -/
def OutputFile.stored (pack : Bytes → Bytes) (f : OutputFile) : Bytes :=
  if f.compress then pack f.content else f.content

def documentName : String := "flamekit.json"

/-- The files to write under a configuration. -/
def plannedFiles (c : Config) (o : UnitOutput) : List OutputFile :=
  match c.format with
  | .json =>
    [{ path := Path.join [c.directory, documentName] ++ if c.compress then ".gz" else ""
       content := Text.utf8 o.document, compress := c.compress }]
  | .text =>
    (emittedFiles c.module o).map fun (source, text) =>
      { path := artifactPath c.directory source, content := Text.utf8 text, compress := false }

/-- The text that is printed instead of writing files. -/
def printedOutput (c : Config) (o : UnitOutput) : String :=
  match c.format with
  | .json => o.document ++ "\n"
  | .text =>
    String.intercalate "\n" ((emittedFiles c.module o).map fun (source, text) =>
      "// " ++ source ++ "\n" ++ text)

/-- The files that were written last, if they are remembered. -/
abbrev Written := Option Cache

namespace Written

/-- Whether a file is to be written; it is remembered now. -/
def isStale (w : Written) (now : Time) (f : OutputFile) : Bool × Written :=
  match w with
  | none => (true, none)
  | some c =>
    let (stale, c) := c.changed now f.path (contentDigest f.content)
    (stale, some c)

def forget (w : Written) (f : OutputFile) : Written := w.map (·.erase f.path)

end Written

section

variable {m : Type → Type} [Monad m] [Host m]

/-- Write a file, and make the directories that lead to it. -/
def writeFile (pack : Bytes → Bytes) (f : OutputFile) : m (Except CommandFailure Unit) := do
  let dir := Path.dir f.path
  match ← Host.makeDirectories dir with
  | .error e => return .error (.noDirectory dir e)
  | .ok () => return (← Host.write f.path (f.stored pack)).mapError (.unwritten f.path)

/-- Write the files that are not as they should be: the paths written until a failure, and what is
remembered afterwards. -/
def writeFiles (pack : Bytes → Bytes) :
    Written → List OutputFile → m (Except CommandFailure (List String) × Written)
  | w, [] => return (.ok [], w)
  | w, f :: fs => do
    let (stale, w) := w.isStale (← Host.now) f
    if stale then
      match ← writeFile pack f with
      | .error e => return (.error e, w.forget f)
      | .ok () =>
        let (paths, w) ← writeFiles pack w fs
        return (paths.map (f.path :: ·), w)
    else writeFiles pack w fs

/-- What a run reports. -/
def summaryOf (o : UnitOutput) (files : List String) : Summary :=
  { classes := o.classes.length
    hooked := o.classes.countP (·.hooked)
    guards := o.arena.size
    warnings := o.warnings.length
    files }

/-- Transform the program in a file and write the results; what is remembered afterwards. -/
def CommandSession.writeProgram (s : CommandSession) (w : Written) (path : String) :
    m (Except CommandFailure Unit × Written) := do
  match ← (s.transform (m := m) path).run with
  | .error e => return (.error e, w)
  | .ok o =>
    let (paths, w) ← writeFiles Gzip.pack w (plannedFiles s.config o)
    match paths with
    | .error e => return (.error e, w)
    | .ok paths =>
      Host.say .result ((summaryOf o paths).text s.colors)
      return (.ok (), w)

/-- Transform the program in a file and print the results. -/
def CommandSession.printProgram (s : CommandSession) (path : String) : Outcome m Unit := do
  let o ← s.transform path
  Host.say (m := m) .result (printedOutput s.config o)

end

end Componentry
