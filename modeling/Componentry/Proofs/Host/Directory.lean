import Componentry.Host.Directory
import Componentry.Proofs.Text.Path

/-!
# Where a path leads, and what stays when a file changes

A directory decides whether a path can be followed, but not where it leads: if it leads anywhere, it
leads to `Place.ofPath`, which hangs on where the directory stands and on nothing else of it.

`Directory.ChangesOnly p d d'` says that a directory has changed at the place `p` at most: it stands
where it stood, folders are still folders, and every other file has the content it had. What could
be read elsewhere can still be read (`ChangesOnly.read`). All that writing, taking away and making
folders do is such a change, and what was written can be read (`write_read`).
-/

namespace Componentry

open List Componentry.Path

variable {d d' : Directory} {path : String} {p : Place} {content : Bytes}

theorem lookup_filter_ne {α β : Type} [BEq α] [LawfulBEq α] [DecidableEq α] (l : List (α × β))
    (a b : α) : (l.filter (·.1 ≠ a)).lookup b = if b = a then none else l.lookup b := by
  induction l with
  | nil => simp
  | cons e rest ih =>
    by_cases he : e.1 = a
    · rw [filter_cons_of_neg (by simp [he]), ih, lookup_cons]
      by_cases hb : b = a
      · rw [if_pos hb, if_pos hb]
      · have hne : b ≠ e.1 := by
          rw [he]
          exact hb
        rw [if_neg hb, if_neg hb, beq_false_of_ne hne]
    · rw [filter_cons_of_pos (by simp [he]), lookup_cons, lookup_cons, ih]
      by_cases hb : b = e.1
      · simp [hb, he]
      · rw [beq_false_of_ne hb]

namespace Place

/-- One step of a path, if it can be made. -/
def go (p : Place) (name : String) : Place :=
  if name = "" || name = "." then p
  else if name = ".." then p.dropLast
  else p ++ [name]

/-- The place that a path leads to from `here`, if it can be followed. -/
def ofPath (here : Place) (path : String) : Place :=
  (parts path).foldl go (if path.startsWith "/" then [] else here)

end Place

open Place

namespace Directory

/-! ## Following a path -/

theorem kindAt_eq_directory : d.kindAt p = some .directory ↔
      d.isKnownFolder p = true ∨ (d.files.lookup p = none ∧ p ∈ d.folders) := by
  unfold kindAt
  by_cases hknown : d.isKnownFolder p = true
  · simp [hknown]
  · cases hfile : d.files.lookup p with
    | none | some bytes => simp [hknown]

theorem step_ok {q : Place} {name : String} (h : d.step q name = .ok p) :
    d.kindAt q = some .directory ∧ p = go q name := by
  unfold step at h
  split at h
  · cases h
  · cases h
  · rename_i hkind
    refine ⟨hkind, ?_⟩
    unfold go
    split at h
    · rename_i hstay
      cases h
      rw [if_pos hstay]
    · rename_i hstay
      rw [if_neg hstay]
      split at h
      · rename_i hup
        cases h
        rw [if_pos hup]
      · rename_i hup
        rw [if_neg hup]
        split at h
        · cases h
        · cases h
          rfl

theorem step_congr {q : Place} (h : d.kindAt q = d'.kindAt q) (name : String) :
    d.step q name = d'.step q name := by
  unfold step
  rw [h]

theorem foldlM_step_ok : ∀ {names : List String} {q p : Place},
    names.foldlM d.step q = .ok p → p = names.foldl go q
  | [], q, p, h => by
    cases h
    rfl
  | name :: names, q, p, h => by
    rw [foldlM_cons] at h
    cases hstep : d.step q name with
    | error cause =>
      rw [hstep] at h
      cases h
    | ok next =>
      rw [hstep] at h
      rw [foldl_cons, ← (step_ok hstep).2]
      exact foldlM_step_ok h

/-- What can be a path: some characters, not too many, and none of them zero. -/
def IsPath (path : String) : Prop :=
  '\x00' ∉ path.toList ∧ path ≠ "" ∧ (Text.utf8 path).length ≤ maxPathLength

theorem locate_eq_ok : d.locate path = .ok p ↔ IsPath path ∧
    (Path.parts path).foldlM d.step (if path.startsWith "/" then [] else d.here) = .ok p := by
  unfold locate IsPath
  split_ifs <;> simp_all

/-- A path that can be followed leads to its place. -/
theorem locate_ok (h : d.locate path = .ok p) : p = ofPath d.here path :=
  foldlM_step_ok (locate_eq_ok.1 h).2

/-- Every folder of `d` is one of `d'`. -/
def FoldersStay (d d' : Directory) : Prop :=
  ∀ p, d.kindAt p = some .directory → d'.kindAt p = some .directory

theorem FoldersStay.foldlM_step (hstay : FoldersStay d d') :
    ∀ {names : List String} {q p : Place},
      names.foldlM d.step q = .ok p → names.foldlM d'.step q = .ok p
  | [], _, _, h => h
  | name :: names, q, p, h => by
    rw [foldlM_cons] at h ⊢
    cases hstep : d.step q name with
    | error cause =>
      rw [hstep] at h
      cases h
    | ok next =>
      have hfolder := (step_ok hstep).1
      have hsame : d.kindAt q = d'.kindAt q := by
        rw [hfolder, hstay q hfolder]
      rw [← step_congr hsame, hstep]
      rw [hstep] at h
      exact FoldersStay.foldlM_step hstay h

/-! ## Changes at one place -/

/-- The directory has changed at one place at most. -/
structure ChangesOnly (p : Place) (d d' : Directory) : Prop where
  here : d'.here = d.here
  folders : FoldersStay d d'
  files : ∀ q, q ≠ p → d'.files.lookup q = d.files.lookup q

theorem ChangesOnly.refl (p : Place) (d : Directory) : ChangesOnly p d d :=
  ⟨rfl, fun _ h => h, fun _ _ => rfl⟩

theorem ChangesOnly.trans {d'' : Directory} (h : ChangesOnly p d d') (h' : ChangesOnly p d' d'') :
    ChangesOnly p d d'' :=
  ⟨h'.here.trans h.here, fun q hq => h'.folders q (h.folders q hq),
    fun q hq => (h'.files q hq).trans (h.files q hq)⟩

theorem ChangesOnly.locate {q : Place} (hd : ChangesOnly q d d') (h : d.locate path = .ok p) :
    d'.locate path = .ok p := by
  obtain ⟨hpath, hsteps⟩ := locate_eq_ok.1 h
  refine locate_eq_ok.2 ⟨hpath, ?_⟩
  rw [hd.here]
  exact hd.folders.foldlM_step hsteps

theorem read_eq_ok : d.read path = .ok content ↔
      ∃ p, d.locate path = .ok p ∧ d.isKnownFolder p = false ∧ d.files.lookup p = some content := by
  unfold read
  cases hlocate : d.locate path with
  | error cause => simp
  | ok p =>
    by_cases hknown : d.isKnownFolder p = true
    · have hkind : d.kindAt p = some .directory := kindAt_eq_directory.2 (Or.inl hknown)
      simp [hkind, hknown]
    · rw [Bool.not_eq_true] at hknown
      cases hfile : d.files.lookup p with
      | none =>
        simp only [hfile, Except.ok.injEq, exists_eq_left', reduceCtorEq, and_false, iff_false]
        split <;> simp
      | some bytes =>
        have hkind : d.kindAt p = some .file := by simp [kindAt, hknown, hfile]
        simp [hkind, hknown, hfile]

/-- Paths that lead to one place lead to one content. -/
theorem read_of_place {path' : String} (hread : d.read path = .ok content)
    (hlocate : d.locate path' = .ok p) (hplace : ofPath d.here path' = ofPath d.here path) :
    d.read path' = .ok content := by
  obtain ⟨q, hq, hfile⟩ := read_eq_ok.1 hread
  rw [locate_ok hq, ← hplace, ← locate_ok hlocate] at hfile
  exact read_eq_ok.2 ⟨p, hlocate, hfile⟩

/-- What can be read elsewhere can still be read. -/
theorem ChangesOnly.read (h : ChangesOnly p d d') (hp : ofPath d.here path ≠ p)
    (hread : d.read path = .ok content) : d'.read path = .ok content := by
  obtain ⟨q, hlocate, hknown, hfile⟩ := read_eq_ok.1 hread
  obtain rfl := locate_ok hlocate
  refine read_eq_ok.2 ⟨_, h.locate hlocate, ?_, (h.files _ hp).trans hfile⟩
  rwa [isKnownFolder, h.here]

theorem lookup_setFile (files : List (Place × Bytes)) (p q : Place) (content : Bytes) :
    (setFile files p content).lookup q = if q = p then some content else files.lookup q := by
  induction files with
  | nil =>
    by_cases h : q = p
    · simp [setFile, h]
    · simp [setFile, lookup_cons, beq_false_of_ne h, h]
  | cons f rest ih =>
    obtain ⟨r, old⟩ := f
    unfold setFile
    by_cases hr : r = p
    · subst hr
      by_cases hq : q = r
      · simp [hq]
      · simp [lookup_cons, beq_false_of_ne hq, hq]
    · rw [if_neg hr]
      by_cases hq : q = r
      · subst hq
        simp [hr]
      · simp [lookup_cons, beq_false_of_ne hq, ih]

theorem write_ok (h : d.write path content = .ok d') :
    ∃ p, d.locate path = .ok p ∧ d.kindAt p ≠ some .directory ∧
      d' = { d with files := setFile d.files p content } := by
  unfold write at h
  split at h
  · cases h
  · rename_i p hlocate
    split at h
    · cases h
    · rename_i hkind
      cases h
      exact ⟨p, hlocate, hkind, rfl⟩

theorem write_changesOnly (h : d.write path content = .ok d') :
    ChangesOnly (ofPath d.here path) d d' := by
  obtain ⟨p, hlocate, hkind, rfl⟩ := write_ok h
  obtain rfl := locate_ok hlocate
  have hfiles : ∀ q, q ≠ ofPath d.here path →
      (setFile d.files (ofPath d.here path) content).lookup q = d.files.lookup q := by
    intro q hq
    rw [lookup_setFile, if_neg hq]
  refine ⟨rfl, ?_, hfiles⟩
  intro q hq
  -- no folder is where the file is
  have hne : q ≠ ofPath d.here path := by
    rintro rfl
    exact hkind hq
  rw [kindAt_eq_directory] at hq ⊢
  simpa only [isKnownFolder, hfiles q hne] using hq

/-- What was written can be read. -/
theorem write_read (h : d.write path content = .ok d') : d'.read path = .ok content := by
  have honly := write_changesOnly h
  obtain ⟨p, hlocate, hkind, rfl⟩ := write_ok h
  have hknown : d.isKnownFolder p = false := by
    rw [Bool.eq_false_iff]
    exact fun hknown => hkind (kindAt_eq_directory.2 (Or.inl hknown))
  refine read_eq_ok.2 ⟨p, honly.locate hlocate, hknown, ?_⟩
  simp [lookup_setFile]

theorem remove_changesOnly (d : Directory) (path : String) :
    ChangesOnly (ofPath d.here path) d (d.remove path) := by
  unfold remove
  split
  · exact ChangesOnly.refl _ d
  · rename_i p hlocate
    obtain rfl := locate_ok hlocate
    have hfiles : ∀ q, (d.files.filter (·.1 ≠ ofPath d.here path)).lookup q =
        if q = ofPath d.here path then none else d.files.lookup q :=
      lookup_filter_ne d.files (ofPath d.here path)
    refine ⟨rfl, ?_, fun q hq => by rw [hfiles, if_neg hq]⟩
    intro q hq
    rw [kindAt_eq_directory] at hq ⊢
    refine hq.imp_right fun ⟨hnone, hfolder⟩ => ⟨?_, hfolder⟩
    rw [hfiles, hnone, ite_self]

theorem makeDirectory_changesOnly (p : Place) (h : d.makeDirectory path = .ok d') :
    ChangesOnly p d d' := by
  unfold makeDirectory at h
  simp only at h
  split at h
  · cases h
  · split at h
    · cases h
    · cases h
      refine ⟨rfl, ?_, fun _ _ => rfl⟩
      intro q hq
      rw [kindAt_eq_directory] at hq ⊢
      exact hq.imp_right fun ⟨hnone, hfolder⟩ => ⟨hnone, mem_append_left _ hfolder⟩

end Directory

end Componentry
