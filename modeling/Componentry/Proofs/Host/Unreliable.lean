import Componentry.Host.Rehearsal
import Componentry.Proofs.Host.Directory

/-!
# A host on which actions fail

A rehearsal in which any action on a file may come to grief. What befalls the actions is given in
advance, one entry for each: nothing, or a `Mishap`. A folder that comes to grief is not made. A
write that comes to grief leaves what the mishap leaves of the file, which may be its old content, a
part of the new one, anything else, or no file.

Whatever happens, a write touches its own place only, and if it reports success, the content can be
read (`write_run`). Making folders touches no file (`makeDirectories_run`).
-/

namespace Componentry

variable {r : Except FileError Unit} {path : String}

/-- How an action fails: the cause it reports, and what it leaves of the content of the file. -/
structure Mishap where
  cause : FileCause
  left : Option Bytes → Option Bytes

/-- A directory in which a write of the file at a path has come to grief. -/
def Directory.spoil (d : Directory) (path : String) (m : Mishap) : Directory :=
  match m.left (d.read path).toOption with
  | some content => (d.write path content).toOption.getD d
  | none => d.remove path

theorem Directory.spoil_changesOnly (d : Directory) (path : String) (m : Mishap) :
    ChangesOnly (Place.ofPath d.here path) d (d.spoil path m) := by
  unfold spoil
  split
  · rename_i content _
    cases hwrite : d.write path content with
    | error e => exact .refl _ d
    | ok d' => exact write_changesOnly hwrite
  · exact remove_changesOnly d path

/-- A rehearsal, and what befalls the actions to come. -/
structure Unreliable extends Rehearsal where
  mishaps : List (Option Mishap)

namespace Unreliable

/-- Act on the directory, if nothing befalls the action. -/
def change (failed : FileCause → FileError) (act : Directory → Except FileError Directory)
    (harm : Directory → Mishap → Directory) : StateM Unreliable (Except FileError Unit) :=
  modifyGet fun s =>
    let rest := s.mishaps.tail
    match s.mishaps.head?.join with
    | some m =>
      (.error (failed m.cause), { s with directory := harm s.directory m, mishaps := rest })
    | none =>
      match act s.directory with
      | .ok directory => (.ok (), { s with directory, mishaps := rest })
      | .error e => (.error e, { s with mishaps := rest })

end Unreliable

instance : Host (StateM Unreliable) where
  kind? path := do return (← get).directory.kind? path
  read path := do return (← get).directory.read path
  write path content :=
    Unreliable.change (⟨.open, path, ·⟩) (·.write path content) (·.spoil path ·)
  makeDirectory path :=
    Unreliable.change (⟨.makeDirectory, path, ·⟩) (·.makeDirectory path) (fun d _ => d)
  environment? name := do return (← get).environment.lookup name
  now := modifyGet fun s => (s.time, { s with time := s.time + 1 })
  say channel text := modify fun s => { s with said := s.said ++ [(channel, text)] }
  ask _ := return none

/-! ## What the actions do -/

theorem run_bind_eq {σ α β : Type} {x : StateM σ α} {f : α → StateM σ β} {s s' : σ} {b : β} :
    (x >>= f).run s = (b, s') ↔ ∃ a s₁, x.run s = (a, s₁) ∧ (f a).run s₁ = (b, s') := by
  have hbind : (x >>= f).run s = (f (x.run s).1).run (x.run s).2 := rfl
  rw [hbind]
  constructor
  · intro h
    exact ⟨_, _, rfl, h⟩
  · rintro ⟨a, s₁, hx, hf⟩
    rw [hx]
    exact hf

theorem run_pure_eq {σ α : Type} {a b : α} {s s' : σ} :
    (pure a : StateM σ α).run s = (b, s') ↔ a = b ∧ s = s' := by
  have hpure : (pure a : StateM σ α).run s = (a, s) := rfl
  rw [hpure, Prod.mk.injEq]

namespace Unreliable

variable {s s' : Unreliable} {p : Place}

/-- An action changes what it may change, and does what it is to do if it succeeds. -/
theorem change_run {failed : FileCause → FileError} {act : Directory → Except FileError Directory}
    {harm : Directory → Mishap → Directory}
    (h : (change failed act harm).run s = (r, s'))
    (hact : ∀ {d'}, act s.directory = .ok d' → Directory.ChangesOnly p s.directory d')
    (hharm : ∀ m, Directory.ChangesOnly p s.directory (harm s.directory m)) :
    Directory.ChangesOnly p s.directory s'.directory ∧
      (r = .ok () → act s.directory = .ok s'.directory) := by
  have hrun : (change failed act harm).run s = (match s.mishaps.head?.join with
      | some m => (.error (failed m.cause),
          { s with directory := harm s.directory m, mishaps := s.mishaps.tail })
      | none =>
        match act s.directory with
        | .ok directory => (.ok (), { s with directory, mishaps := s.mishaps.tail })
        | .error e => (.error e, { s with mishaps := s.mishaps.tail })) := rfl
  rw [hrun] at h
  split at h
  · rename_i m _
    cases h
    exact ⟨hharm m, by simp⟩
  · split at h
    · rename_i directory hdone
      cases h
      exact ⟨hact hdone, fun _ => hdone⟩
    · cases h
      exact ⟨.refl p _, by simp⟩

/-- A write touches its own place only; if it succeeds, its content is there. -/
theorem write_run {content : Bytes}
    (h : (Host.write path content : StateM Unreliable _).run s = (r, s')) :
    Directory.ChangesOnly (Place.ofPath s.directory.here path) s.directory s'.directory ∧
      (r = .ok () → s'.directory.read path = .ok content) := by
  have hchange := change_run h Directory.write_changesOnly
    (Directory.spoil_changesOnly s.directory path)
  exact ⟨hchange.1, fun hr => Directory.write_read (hchange.2 hr)⟩

theorem makeDirectory_run (h : (Host.makeDirectory path : StateM Unreliable _).run s = (r, s')) :
    Directory.ChangesOnly p s.directory s'.directory :=
  (change_run h (Directory.makeDirectory_changesOnly p) fun _ => .refl p _).1

theorem makeMissing_run {paths : List String}
    (h : (Host.makeMissing paths : StateM Unreliable _).run s = (r, s')) :
    Directory.ChangesOnly p s.directory s'.directory := by
  induction paths generalizing s with
  | nil =>
    obtain ⟨-, rfl⟩ := run_pure_eq.1 h
    exact .refl p _
  | cons path paths ih =>
    obtain ⟨kind, s₁, hkind, h⟩ := run_bind_eq.1 h
    -- looking at a path changes nothing
    obtain ⟨-, rfl⟩ : s.directory.kind? path = kind ∧ s = s₁ := Prod.mk.inj hkind
    cases kind with
    | none =>
      obtain ⟨made, s₂, hmake, h⟩ := run_bind_eq.1 h
      have hfirst := makeDirectory_run hmake (p := p)
      cases made with
      | ok _ => exact hfirst.trans (ih h)
      | error e =>
        obtain ⟨-, rfl⟩ := run_pure_eq.1 h
        exact hfirst
    | some k =>
      cases k with
      | directory => exact ih h
      | file =>
        obtain ⟨-, rfl⟩ := run_pure_eq.1 h
        exact .refl p _

theorem makeDirectories_run
    (h : (Host.makeDirectories path : StateM Unreliable _).run s = (r, s')) :
    Directory.ChangesOnly p s.directory s'.directory :=
  makeMissing_run h

end Unreliable

end Componentry
