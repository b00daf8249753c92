import Componentry.Proofs.Host.Unreliable
import Componentry.Proofs.Output.Paths

/-!
# Files that are skipped hold what would be written

A session that remembers what it wrote skips a file if the digest of its content is the one that is
remembered for its path. The digest is remembered before the file is written, and forgotten if the
write fails.

`Writes` has one rule for each thing that can happen to a file of a call, and every call on a host
on which actions may fail is built from them (`writes_of_run`). The invariant of a session is
`Trusted`: every file that would be skipped holds its content, if no other path of the session leads
to its place. Each rule preserves it: a write touches its own place only, and a write that fails is
forgotten. So it holds after any number of calls, however they end.

What is remembered goes by paths as they are spelled. If a session spells the path of a file in two
ways, it can skip the file although it holds something else (`respelled_file_differs`).
-/

namespace Componentry

open List Written

variable {f g : OutputFile} {w w' : Written} {paths : List String}
  {r : Except CommandFailure (List String)} {fs pre : List OutputFile} {d' d : Directory}
  {s' s : Unreliable} {pack : Bytes → Bytes}

/-! ## What is remembered -/

namespace Written

/-- What is remembered once a file has been compared. -/
def remember (w : Written) (now : Time) (f : OutputFile) : Written :=
  w.map (·.insert now f.path (contentDigest f.content))

/-- The file would be skipped: its path is remembered with the digest of its content. -/
def Skips (w : Written) (f : OutputFile) : Prop :=
  ∃ cache entry, w = some cache ∧ cache.get? f.path = some entry ∧
    entry.digest = contentDigest f.content

variable {w : Written} {now : Time} {f g : OutputFile}

theorem isStale_of_skips (h : w.Skips f) (now : Time) : w.isStale now f = (false, w) := by
  obtain ⟨cache, entry, rfl, hentry, hdigest⟩ := h
  simp [isStale, Cache.changed, hentry, hdigest]

theorem isStale_of_not_skips (h : ¬ w.Skips f) (now : Time) :
    w.isStale now f = (true, w.remember now f) := by
  cases w with
  | none => rfl
  | some cache =>
    have hdiffers : (cache.get? f.path).map (·.digest) ≠ some (contentDigest f.content) := by
      intro heq
      obtain ⟨entry, hentry, hdigest⟩ := Option.map_eq_some_iff.1 heq
      exact h ⟨cache, entry, rfl, hentry, hdigest⟩
    simp [isStale, Cache.changed, hdiffers, remember]

theorem skips_of_isStale (h : (w.isStale now f).1 = false) : w.Skips f := by
  by_contra hnot
  rw [isStale_of_not_skips hnot] at h
  cases h

theorem isSome_remember (w : Written) (now : Time) (f : OutputFile) :
    (w.remember now f).isSome = w.isSome := Option.isSome_map

theorem get?_erase (cache : Cache) (path path' : String) :
    (cache.erase path).get? path' = if path' = path then none else cache.get? path' :=
  lookup_filter_ne cache.entries path path'

/-- Of a file that was just compared, exactly its own digest is remembered. -/
theorem skips_remember_same (hpath : g.path = f.path) : (w.remember now f).Skips g ↔
      w.isSome = true ∧ contentDigest f.content = contentDigest g.content := by
  cases w with
  | none => simp [remember, Skips]
  | some cache => simp [remember, Skips, Cache.get?, Cache.insert, hpath]

/-- Nothing else is remembered or forgotten with a file. -/
theorem skips_remember_other (hpath : g.path ≠ f.path) :
    (w.remember now f).Skips g ↔ w.Skips g := by
  cases w with
  | none => simp [remember, Skips]
  | some cache =>
    have hget : (cache.insert now f.path (contentDigest f.content)).get? g.path =
        cache.get? g.path := by
      have herase := get?_erase cache f.path g.path
      rw [if_neg hpath] at herase
      rw [← herase]
      simp [Cache.insert, Cache.get?, lookup_cons, beq_false_of_ne hpath]
    simp [remember, Skips, hget]

theorem skips_forget : (w.forget f).Skips g ↔ g.path ≠ f.path ∧ w.Skips g := by
  cases w with
  | none => simp [forget, Skips]
  | some cache =>
    by_cases hpath : g.path = f.path
    · simp [forget, Skips, get?_erase, hpath]
    · simp [forget, Skips, get?_erase, hpath]

end Written

/-! ## What happens to the files of a call -/

/-- Writing a file touches its own place only; if it succeeds, the file holds its content. -/
theorem writeFile_run {r : Except CommandFailure Unit}
    (h : (writeFile pack f : StateM Unreliable _).run s = (r, s')) :
    Directory.ChangesOnly (Place.ofPath s.directory.here f.path) s.directory s'.directory ∧
      (r = .ok () → s'.directory.read f.path = .ok (f.stored pack)) := by
  obtain ⟨made, s₁, hmake, h⟩ := run_bind_eq.1 h
  have hfolders := Unreliable.makeDirectories_run (p := Place.ofPath s.directory.here f.path) hmake
  cases made with
  | error e =>
    obtain ⟨rfl, rfl⟩ := run_pure_eq.1 h
    exact ⟨hfolders, by simp⟩
  | ok _ =>
    obtain ⟨written, s₂, hwrite, h⟩ := run_bind_eq.1 h
    obtain ⟨rfl, rfl⟩ := run_pure_eq.1 h
    obtain ⟨honly, hread⟩ := Unreliable.write_run hwrite
    rw [hfolders.here] at honly
    refine ⟨hfolders.trans honly, fun hok => hread ?_⟩
    cases written with
    | error e => cases hok
    | ok _ => rfl

/-! ### The course of a call -/

/-- The world after a look at the clock. -/
def Unreliable.tick (s : Unreliable) : Unreliable := { s with time := s.time + 1 }

section Course

variable {w w₁ w' : Written} {s s₁ s' : Unreliable} {f : OutputFile} {fs : List OutputFile}

/-- A file that is skipped takes a look at the clock and nothing else. -/
theorem writeFiles_skip (hskip : w.Skips f) :
    (writeFiles pack w (f :: fs) : StateM Unreliable _).run s =
      (writeFiles pack w fs : StateM Unreliable _).run s.tick := by
  apply run_bind_eq.2
  refine ⟨s.time, s.tick, rfl, ?_⟩
  rw [isStale_of_skips hskip]
  rfl

theorem writeFiles_fail (hskip : ¬ w.Skips f) {e : CommandFailure}
    (hwrite : (writeFile pack f : StateM Unreliable _).run s.tick = (.error e, s')) :
    (writeFiles pack w (f :: fs) : StateM Unreliable _).run s =
      ((.error e, (w.remember s.time f).forget f), s') := by
  apply run_bind_eq.2
  refine ⟨s.time, s.tick, rfl, ?_⟩
  rw [isStale_of_not_skips hskip]
  apply run_bind_eq.2
  exact ⟨.error e, s', hwrite, rfl⟩

theorem writeFiles_write (hskip : ¬ w.Skips f)
    (hwrite : (writeFile pack f : StateM Unreliable _).run s.tick = (.ok (), s₁))
    (hrest : (writeFiles pack (w.remember s.time f) fs : StateM Unreliable _).run s₁ =
      ((r, w'), s')) :
    (writeFiles pack w (f :: fs) : StateM Unreliable _).run s = ((r.map (f.path :: ·), w'), s') := by
  apply run_bind_eq.2
  refine ⟨s.time, s.tick, rfl, ?_⟩
  rw [isStale_of_not_skips hskip]
  apply run_bind_eq.2
  refine ⟨.ok (), s₁, hwrite, ?_⟩
  apply run_bind_eq.2
  exact ⟨(r, w'), s', hrest, rfl⟩

theorem writeFiles_skip_all (h : ∀ f ∈ fs, w.Skips f) :
    ∃ s', (writeFiles pack w fs : StateM Unreliable _).run s = ((.ok [], w), s') ∧
      s'.directory = s.directory := by
  induction fs generalizing s with
  | nil => exact ⟨s, rfl, rfl⟩
  | cons f fs ih =>
    rw [writeFiles_skip (h f mem_cons_self)]
    exact ih fun g hg => h g (mem_cons_of_mem _ hg)

/-- A call that is through with its first files goes on with the others. -/
theorem writeFiles_append
    (hpre : (writeFiles pack w pre : StateM Unreliable _).run s = ((.ok paths, w₁), s₁))
    (hfs : (writeFiles pack w₁ fs : StateM Unreliable _).run s₁ = ((r, w'), s')) :
    (writeFiles pack w (pre ++ fs) : StateM Unreliable _).run s = ((r.map (paths ++ ·), w'), s') := by
  induction pre generalizing w s paths with
  | nil =>
    cases hpre
    rw [nil_append, hfs]
    cases r with
    | error e => rfl
    | ok rest => rfl
  | cons f pre ih =>
    by_cases hskip : w.Skips f
    · rw [writeFiles_skip hskip] at hpre
      rw [cons_append, writeFiles_skip hskip]
      exact ih hpre
    · rcases hwrite : (writeFile pack f : StateM Unreliable _).run s.tick with ⟨written, s₂⟩
      cases written with
      | error e =>
        rw [writeFiles_fail hskip hwrite] at hpre
        cases hpre
      | ok _ =>
        rcases hrest : (writeFiles pack (w.remember s.time f) pre : StateM Unreliable _).run s₂ with
          ⟨⟨r₁, w₂⟩, s₃⟩
        rw [writeFiles_write hskip hwrite hrest] at hpre
        cases r₁ with
        | error e => cases hpre
        | ok paths₁ =>
          cases hpre
          rw [cons_append, writeFiles_write hskip hwrite (ih hrest)]
          cases r with
          | error e | ok rest => rfl

end Course

/-! ### The rules of a call -/

/-- A call on some files: what it starts from, what it returns, and what it leaves. -/
inductive Writes (pack : Bytes → Bytes) : Written → Directory → List OutputFile →
    Except CommandFailure (List String) → Written → Directory → Prop
  | done {w : Written} {d : Directory} : Writes pack w d [] (.ok []) w d
  | skip {w w' : Written} {d d' : Directory} {f : OutputFile} {fs : List OutputFile}
      {r : Except CommandFailure (List String)} :
      w.Skips f → Writes pack w d fs r w' d' → Writes pack w d (f :: fs) r w' d'
  | fail {w : Written} {d d' : Directory} {f : OutputFile} {fs : List OutputFile}
      {now : Time} {e : CommandFailure} :
      ¬ w.Skips f → Directory.ChangesOnly (Place.ofPath d.here f.path) d d' →
        Writes pack w d (f :: fs) (.error e) ((w.remember now f).forget f) d'
  | write {w w' : Written} {d d₁ d' : Directory} {f : OutputFile} {fs : List OutputFile}
      {now : Time} {r : Except CommandFailure (List String)} :
      ¬ w.Skips f → Directory.ChangesOnly (Place.ofPath d.here f.path) d d₁ →
        d₁.read f.path = .ok (f.stored pack) → Writes pack (w.remember now f) d₁ fs r w' d' →
          Writes pack w d (f :: fs) (r.map (f.path :: ·)) w' d'

theorem writes_of_run (h : (writeFiles pack w fs : StateM Unreliable _).run s = ((r, w'), s')) :
    Writes pack w s.directory fs r w' s'.directory := by
  induction fs generalizing w s r with
  | nil =>
    obtain ⟨hr, rfl⟩ := run_pure_eq.1 h
    obtain ⟨rfl, rfl⟩ := Prod.mk.inj hr
    exact .done
  | cons f fs ih =>
    by_cases hskip : w.Skips f
    · rw [writeFiles_skip hskip] at h
      have hrest := ih h
      exact .skip hskip hrest
    · rcases hwrite : (writeFile pack f : StateM Unreliable _).run s.tick with ⟨written, s₁⟩
      obtain ⟨honly, hread⟩ := writeFile_run hwrite
      cases written with
      | error e =>
        rw [writeFiles_fail hskip hwrite] at h
        cases h
        exact .fail hskip honly
      | ok _ =>
        rcases hrest : (writeFiles pack (w.remember s.time f) fs : StateM Unreliable _).run s₁ with
          ⟨⟨r₁, w₁⟩, s₂⟩
        rw [writeFiles_write hskip hwrite hrest] at h
        cases h
        exact .write hskip honly (hread rfl) (ih hrest)

/-- A call leaves the directory where it stands. -/
theorem Writes.here (h : Writes pack w d fs r w' d') : d'.here = d.here := by
  induction h with
  | done => rfl
  | skip _ _ ih => exact ih
  | fail _ honly => exact honly.here
  | write _ honly _ _ ih => exact ih.trans honly.here

/-- The first file of a call that succeeds is skipped or written. -/
theorem Writes.cases_ok (h : Writes pack w d (f :: fs) (.ok paths) w' d') :
    (w.Skips f ∧ Writes pack w d fs (.ok paths) w' d') ∨
      ∃ d₁ now rest, Directory.ChangesOnly (Place.ofPath d.here f.path) d d₁ ∧
        d₁.read f.path = .ok (f.stored pack) ∧
        Writes pack (w.remember now f) d₁ fs (.ok rest) w' d' := by
  generalize hr : Except.ok paths = r at h
  cases h with
  | skip hskip hrest =>
    subst hr
    exact .inl ⟨hskip, hrest⟩
  | fail => cases hr
  | write hskip honly hread hrest =>
    rename_i d₁ now rest
    cases rest with
    | error e => cases hr
    | ok rest => exact .inr ⟨d₁, now, rest, honly, hread, hrest⟩

/-! ## The invariant of a session -/

/-- The digest tells the contents of the files apart. -/
def DigestsTell (fs : List OutputFile) : Prop :=
  ∀ f ∈ fs, ∀ g ∈ fs, contentDigest f.content = contentDigest g.content → f.content = g.content

/-- No other path of the files leads to the place of `path`, from a directory at `here`. -/
def SpelledOnce (here : Place) (fs : List OutputFile) (path : String) : Prop :=
  ∀ f ∈ fs, Place.ofPath here f.path = Place.ofPath here path → f.path = path

/-- Where a session has come to: it remembers what it wrote, and every file that would be skipped
and whose path is spelled in one way only holds what would be stored. -/
structure Trusted (pack : Bytes → Bytes) (here : Place) (fs : List OutputFile) (w : Written)
    (d : Directory) : Prop where
  remembers : w.isSome = true
  stands : d.here = here
  holds : ∀ f ∈ fs, SpelledOnce here fs f.path → w.Skips f →
    d.read f.path = .ok (f.stored pack)

section Session

variable {here : Place} {all : List OutputFile}

/-- What another file of the session holds is not touched by a write. -/
theorem Trusted.read_other (h : Trusted pack here all w d) (hf : f ∈ all) (hg : g ∈ all)
    (hpath : g.path ≠ f.path) (honly : Directory.ChangesOnly (Place.ofPath d.here f.path) d d')
    (hspelled : SpelledOnce here all g.path) {now : Time} (hskip : (w.remember now f).Skips g) :
    d'.read g.path = .ok (g.stored pack) := by
  apply honly.read _ (h.holds g hg hspelled ((skips_remember_other hpath).1 hskip))
  rw [h.stands]
  intro hplace
  exact hpath (hspelled f hf hplace.symm).symm

theorem Trusted.write (hcompress : ∀ f ∈ all, f.compress = f.path.endsWith ".gz")
    (hdigest : DigestsTell all) (hf : f ∈ all) {now : Time} (h : Trusted pack here all w d)
    (honly : Directory.ChangesOnly (Place.ofPath d.here f.path) d d')
    (hread : d'.read f.path = .ok (f.stored pack)) :
    Trusted pack here all (w.remember now f) d' := by
  refine ⟨(isSome_remember w now f).trans h.remembers, honly.here.trans h.stands, ?_⟩
  intro g hg hspelled hskip
  by_cases hpath : g.path = f.path
  · -- the digest that is remembered is the one of the file just written
    have hcontent := hdigest f hf g hg ((skips_remember_same hpath).1 hskip).2
    rw [hpath, hread, OutputFile.stored, OutputFile.stored, hcontent, hcompress f hf,
      hcompress g hg, hpath]
  · exact h.read_other hf hg hpath honly hspelled hskip

theorem Trusted.fail (hf : f ∈ all) {now : Time} (h : Trusted pack here all w d)
    (honly : Directory.ChangesOnly (Place.ofPath d.here f.path) d d') :
    Trusted pack here all ((w.remember now f).forget f) d' := by
  refine ⟨?_, honly.here.trans h.stands, ?_⟩
  · rw [forget, Option.isSome_map, isSome_remember, h.remembers]
  intro g hg hspelled hskip
  -- the file that failed is forgotten, so only others would be skipped
  obtain ⟨hpath, hskip⟩ := skips_forget.1 hskip
  exact h.read_other hf hg hpath honly hspelled hskip

/-- A call keeps the invariant, however it ends. -/
theorem Writes.trusted (hcompress : ∀ f ∈ all, f.compress = f.path.endsWith ".gz")
    (hdigest : DigestsTell all) (hfs : ∀ f ∈ fs, f ∈ all) (hw : Trusted pack here all w d)
    (h : Writes pack w d fs r w' d') : Trusted pack here all w' d' := by
  induction h with
  | done => exact hw
  | skip hskip hrest ih => exact ih (fun g hg => hfs g (mem_cons_of_mem _ hg)) hw
  | fail _ honly => exact hw.fail (hfs _ mem_cons_self) honly
  | write hskip honly hread hrest ih =>
    apply ih (fun g hg => hfs g (mem_cons_of_mem _ hg))
    exact hw.write hcompress hdigest (hfs _ mem_cons_self) honly hread

end Session

/-! ## Calls one after the other -/

/-- Calls that share what is remembered, each with its configuration and its results. -/
def writeRounds {m : Type → Type} [Monad m] [Host m] (pack : Bytes → Bytes) :
    Written → List (Config × UnitOutput) → m Written
  | w, [] => return w
  | w, (c, o) :: rounds => do
    let (_, w) ← writeFiles pack w (plannedFiles c o)
    writeRounds pack w rounds

/-- The files that the calls plan. -/
def roundFiles (rounds : List (Config × UnitOutput)) : List OutputFile :=
  rounds.flatMap fun round => plannedFiles round.1 round.2

theorem mem_roundFiles_concat {rounds : List (Config × UnitOutput)} {c : Config} {o : UnitOutput} :
    f ∈ roundFiles (rounds ++ [(c, o)]) ↔ f ∈ roundFiles rounds ∨ f ∈ plannedFiles c o := by
  simp [roundFiles]

theorem roundFiles_compress {rounds : List (Config × UnitOutput)} (hf : f ∈ roundFiles rounds) :
    f.compress = f.path.endsWith ".gz" := by
  obtain ⟨round, -, hplanned⟩ := mem_flatMap.1 hf
  exact planned_compress hplanned

theorem writeRounds_trusted {here : Place} {all : List OutputFile}
    (hcompress : ∀ f ∈ all, f.compress = f.path.endsWith ".gz") (hdigest : DigestsTell all)
    {rounds : List (Config × UnitOutput)} (hrounds : ∀ f ∈ roundFiles rounds, f ∈ all)
    (hw : Trusted pack here all w s.directory)
    (h : (writeRounds pack w rounds : StateM Unreliable Written).run s = (w', s')) :
    Trusted pack here all w' s'.directory := by
  induction rounds generalizing w s with
  | nil =>
    obtain ⟨rfl, rfl⟩ := run_pure_eq.1 h
    exact hw
  | cons round rounds ih =>
    obtain ⟨⟨r, w₁⟩, s₁, hcall, h⟩ := run_bind_eq.1 h
    have hfirst := (writes_of_run hcall).trusted hcompress hdigest
      (fun f hf => hrounds f (mem_append_left _ hf)) hw
    exact ih (fun f hf => hrounds f (mem_append_right _ hf)) hfirst h

theorem trusted_start (pack : Bytes → Bytes) (all : List OutputFile) (d : Directory) :
    Trusted pack d.here all (some Cache.empty) d := by
  refine ⟨rfl, rfl, ?_⟩
  rintro f - - ⟨cache, entry, hcache, hentry, -⟩
  cases hcache
  cases hentry

/-! ## What is skipped afterwards -/

/-- What would be skipped is still skipped after a call on files with other paths. -/
theorem Writes.skips_other (h : Writes pack w d fs r w' d') (hpaths : ∀ f ∈ fs, f.path ≠ g.path)
    (hskip : w.Skips g) : w'.Skips g := by
  induction h with
  | done => exact hskip
  | skip _ _ ih =>
    apply ih _ hskip
    exact fun f hf => hpaths f (mem_cons_of_mem _ hf)
  | fail =>
    have hne := (hpaths _ mem_cons_self).symm
    exact skips_forget.2 ⟨hne, (skips_remember_other hne).2 hskip⟩
  | write _ _ _ _ ih =>
    apply ih
    · exact fun f hf => hpaths f (mem_cons_of_mem _ hf)
    · exact (skips_remember_other (hpaths _ mem_cons_self).symm).2 hskip

/-- After a call that succeeds, all its files would be skipped, if they have different paths. -/
theorem Writes.skips_all (hsome : w.isSome = true) (hpaths : (fs.map (·.path)).Nodup)
    (h : Writes pack w d fs (.ok paths) w' d') : ∀ f ∈ fs, w'.Skips f := by
  induction fs generalizing w d paths with
  | nil => simp
  | cons f fs ih =>
    rw [map_cons, nodup_cons] at hpaths
    have hothers : ∀ g ∈ fs, g.path ≠ f.path := by
      intro g hg heq
      exact hpaths.1 (heq ▸ mem_map_of_mem hg)
    intro g hg
    rcases h.cases_ok with ⟨hskip, hrest⟩ | ⟨d₁, now, rest, -, -, hrest⟩
    · rcases mem_cons.1 hg with rfl | hg
      · exact hrest.skips_other hothers hskip
      · exact ih hsome hpaths.2 hrest g hg
    · rcases mem_cons.1 hg with rfl | hg
      · exact hrest.skips_other hothers ((skips_remember_same rfl).2 ⟨hsome, rfl⟩)
      · exact ih (by rwa [isSome_remember]) hpaths.2 hrest g hg

/-- After any calls of a session, on a host on which any action may fail and any write may leave its
file damaged: when a call comes to a file and skips it, the file holds exactly what the call would
have stored, if the session has spelled its path in one way; and the call goes on with the other
files from there. Files are skipped whenever they can be: if the call succeeds and its files have
different paths, the same call once more writes nothing. -/
theorem skipped_files_hold {rounds : List (Config × UnitOutput)} {c : Config} {o : UnitOutput}
    (hdigest : DigestsTell (roundFiles (rounds ++ [(c, o)]))) {start s : Unreliable} {w : Written}
    (hrounds : (writeRounds pack (some Cache.empty) rounds : StateM Unreliable Written).run start =
      (w, s)) :
    (∀ {pre post : List OutputFile} {f : OutputFile} {paths : List String} {w₁ : Written}
        {s₁ : Unreliable}, plannedFiles c o = pre ++ f :: post →
      (writeFiles pack w pre : StateM Unreliable _).run s = ((.ok paths, w₁), s₁) →
      (w₁.isStale s₁.time f).1 = false →
        (SpelledOnce start.directory.here (roundFiles (rounds ++ [(c, o)])) f.path →
          s₁.directory.read f.path = .ok (f.stored pack)) ∧
        ∀ {r : Except CommandFailure (List String)} {w' : Written} {s' : Unreliable},
          (writeFiles pack w₁ post : StateM Unreliable _).run s₁.tick = ((r, w'), s') →
            (writeFiles pack w (plannedFiles c o) : StateM Unreliable _).run s =
              ((r.map (paths ++ ·), w'), s')) ∧
    (∀ {paths : List String} {w' : Written} {s' : Unreliable},
      (writeFiles pack w (plannedFiles c o) : StateM Unreliable _).run s = ((.ok paths, w'), s') →
      ((plannedFiles c o).map (·.path)).Nodup →
        ∃ s'', (writeFiles pack w' (plannedFiles c o) : StateM Unreliable _).run s' =
            ((.ok [], w'), s'') ∧
          s''.directory = s'.directory) := by
  have htrusted := writeRounds_trusted (fun f => roundFiles_compress) hdigest
    (fun f hf => mem_roundFiles_concat.2 (.inl hf)) (trusted_start pack _ start.directory) hrounds
  constructor
  · intro pre post f paths w₁ s₁ hplan hpre hstale
    have hskip := skips_of_isStale hstale
    have hplanned : ∀ g ∈ pre ++ f :: post, g ∈ roundFiles (rounds ++ [(c, o)]) := by
      intro g hg
      rw [← hplan] at hg
      exact mem_roundFiles_concat.2 (.inr hg)
    have hbefore := (writes_of_run hpre).trusted (fun f => roundFiles_compress) hdigest
      (fun g hg => hplanned g (mem_append_left _ hg)) htrusted
    refine ⟨fun hspelled => hbefore.holds f (hplanned f (by simp)) hspelled hskip, ?_⟩
    intro r w' s' hpost
    rw [hplan]
    apply writeFiles_append hpre
    rw [writeFiles_skip hskip]
    exact hpost
  · intro paths w' s' hcall hpaths
    exact writeFiles_skip_all ((writes_of_run hcall).skips_all htrusted.remembers hpaths)

/-- A configuration that writes one document. -/
def documentConfig : Config :=
  { space := "", module := "", components := [], hook := "onStart", hookInterface := "OnStart"
    argsField := "args", styleName := "path", style := .path, format := .json, directory := "out"
    compress := false, level := "info", development := false }

/-- A configuration that writes a file for each source. -/
def sourcesConfig : Config := { documentConfig with format := .text }

/-- An empty class of a file. -/
def emptyClass (file name : String) : ClassOutput :=
  { file, hooked := false, usesIdentity := false, guards := [], records := []
    decl := { decl := ⟨0, name, .classDecl, file, ⟨1, 1⟩⟩, typeParams := [], parent := none
              implemented := [], decorations := [], members := [] } }

/-- The results for one empty class. -/
def outputOf (name : String) : UnitOutput :=
  { classes := [emptyClass "src/lamp.ts" name]
    warnings := [], arena := Arena.empty, ids := 0, error := none }

/-- A document that comes to grief, the generated files, and the document again. -/
def lampRounds : List (Config × UnitOutput) :=
  [(documentConfig, outputOf "Lamp"), (sourcesConfig, outputOf "Lamp"),
    (documentConfig, outputOf "Lamp")]

/-- A disk that is full when the first file is written: nothing is left of it. -/
def fullDisk : Unreliable :=
  { Rehearsal.start Directory.empty [] with
    mishaps := [none, some ⟨.other "no space left on device", fun _ => some []⟩] }

/-- The world after the rounds. -/
def lampSession : Written × Unreliable :=
  (writeRounds Gzip.pack (some Cache.empty) lampRounds : StateM Unreliable Written).run fullDisk

/-- The document of the lamp. -/
def lampDocument : OutputFile :=
  { path := Path.join ["out", documentName] ++ "", compress := false
    content := Text.utf8 (outputOf "Lamp").document }

/-- The document that was damaged at first is whole when it is skipped. -/
theorem skipped_files_hold_lamp :
    (lampSession.1.isStale lampSession.2.time lampDocument).1 = false ∧
      lampSession.2.directory.read "out/flamekit.json" =
        .ok (Text.utf8 (outputOf "Lamp").document) ∧
      ∃ s, (writeFiles Gzip.pack lampSession.1 (plannedFiles documentConfig (outputOf "Lamp")) :
          StateM Unreliable _).run lampSession.2 = ((.ok [], lampSession.1), s) ∧
        ∃ s', (writeFiles Gzip.pack lampSession.1 (plannedFiles documentConfig (outputOf "Lamp")) :
            StateM Unreliable _).run s = ((.ok [], lampSession.1), s') ∧
          s'.directory = s.directory := by
  have hdigest :
      DigestsTell (roundFiles (lampRounds ++ [(documentConfig, outputOf "Lamp")])) := by
    unfold DigestsTell
    decide +kernel
  have hstale : (lampSession.1.isStale lampSession.2.time lampDocument).1 = false := by
    decide +kernel
  have hpath : lampDocument.path = "out/flamekit.json" := by decide +kernel
  have hspelled : SpelledOnce fullDisk.directory.here
      (roundFiles (lampRounds ++ [(documentConfig, outputOf "Lamp")])) lampDocument.path := by
    unfold SpelledOnce
    decide +kernel
  obtain ⟨hhold, hagain⟩ := skipped_files_hold hdigest (rfl : _ = (lampSession.1, lampSession.2))
  obtain ⟨hread, hrest⟩ := hhold (rfl : _ = [] ++ lampDocument :: []) rfl hstale
  have hcall := hrest rfl
  refine ⟨hstale, ?_, lampSession.2.tick, hcall, hagain hcall (nodup_singleton lampDocument.path)⟩
  rw [← hpath]
  exact hread hspelled

/-- A lamp is written to `out`, and a door to `/work/out`, which is the same folder. -/
def respelledRounds : List (Config × UnitOutput) :=
  [(documentConfig, outputOf "Lamp"),
    ({ documentConfig with directory := "/work/out" }, outputOf "Door")]

/-- If the lamp is to be written again, it is skipped although its file holds the door. -/
theorem respelled_file_differs :
    let session := (writeRounds Gzip.pack (some Cache.empty) respelledRounds :
      StateM Unreliable Written).run { Rehearsal.start Directory.empty [] with mishaps := [] }
    DigestsTell (roundFiles (respelledRounds ++ [(documentConfig, outputOf "Lamp")])) ∧
      (session.1.isStale session.2.time lampDocument).1 = false ∧
      session.2.directory.read lampDocument.path = .ok (Text.utf8 (outputOf "Door").document) ∧
      lampDocument.content ≠ Text.utf8 (outputOf "Door").document := by
  unfold DigestsTell
  decide +kernel

end Componentry
