import Componentry.Digest.Sha256
import Componentry.Host.Basic

/-!
# What files held when they were last seen

A cache remembers a digest of the content of each path. `changed` compares and remembers at once, so
that of several equal contents only the first counts as a change.
-/

namespace Componentry

/-- What is remembered of a path. -/
structure CacheEntry where
  digest : String
  updated : Time
  deriving DecidableEq, Repr

/-- Entries by path. -/
structure Cache where
  entries : List (String × CacheEntry)

def contentDigest (bs : Bytes) : String := Digest.hexText (Digest.Sha256.digest bs)

namespace Cache

def empty : Cache := ⟨[]⟩

/-- What is remembered of a path. -/
def get? (c : Cache) (path : String) : Option CacheEntry := c.entries.lookup path

def size (c : Cache) : Nat := c.entries.length

def erase (c : Cache) (path : String) : Cache := ⟨c.entries.filter (·.1 ≠ path)⟩

def insert (c : Cache) (now : Time) (path digest : String) : Cache :=
  ⟨(path, ⟨digest, now⟩) :: (c.erase path).entries⟩

/-- Whether a digest differs from the one remembered; it is remembered now. -/
def changed (c : Cache) (now : Time) (path digest : String) : Bool × Cache :=
  if (c.get? path).map (·.digest) = some digest then (false, c)
  else (true, c.insert now path digest)

/-- Forget what was not updated within `maxAge`; how many paths that are. -/
def prune (c : Cache) (now : Time) (maxAge : Time) : Nat × Cache :=
  let kept := c.entries.filter fun e => now - e.2.updated ≤ maxAge
  (c.entries.length - kept.length, ⟨kept⟩)

/-- The digest of the content of a file. -/
def fileDigest {m : Type → Type} [Monad m] [Host m] (path : String) :
    m (Except FileError String) := do
  return (← Host.read path).map contentDigest

/-- Look at files again: whether any has changed. A file that cannot be read is forgotten, and ends
the round. -/
def refresh {m : Type → Type} [Monad m] [Host m] (c : Cache) :
    Bool → List String → m (Bool × Option FileError × Cache)
  | any, [] => return (any, none, c)
  | any, path :: paths => do
    match ← fileDigest path with
    | .error e => return (true, some e, c.erase path)
    | .ok digest =>
      let (differs, c) := c.changed (← Host.now) path digest
      refresh c (any || differs) paths

end Cache

end Componentry
