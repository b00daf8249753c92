/-!
# Bursts of changes

Changes that come in quick succession are handed on together. A burst collects the files that
change; when nothing has changed for a while they are taken out, each once and in order. After the
end nothing is collected and nothing is handed on any more.
-/

namespace Componentry

/-- Changes that wait to be handed on. -/
structure Burst where
  pending : List String
  stopped : Bool
  deriving DecidableEq, Repr

namespace Burst

def empty : Burst := ⟨[], false⟩

/-- A file among files in order, without repetition. -/
def insert (file : String) : List String → List String
  | [] => [file]
  | f :: fs => if file < f then file :: f :: fs else if file = f then f :: fs
    else f :: insert file fs

/-- A file has changed. -/
def add (b : Burst) (file : String) : Burst :=
  if b.stopped then b else { b with pending := insert file b.pending }

/-- Nothing has changed for a while: the files that changed before, if any, and what is left. -/
def flush (b : Burst) : Option (List String) × Burst :=
  if b.pending.isEmpty || b.stopped then (none, b) else (some b.pending, { b with pending := [] })

def stop (b : Burst) : Burst := { b with stopped := true }

end Burst

end Componentry
