import Componentry.Proofs.Output.Writing

/-!
# Which generated files are there

For each source of a program one file is generated, but the name of the generated file does not have
the extension of the source. Sources that differ in their extension only, such as `lamp.ts` and
`lamp.tsx`, and sources whose folders are written in different ways, share one generated file
(`SharesArtifact`). So do sources whose output paths differ but lead to one place. They are written
one after the other, so the text of the last one is there.
-/

namespace Componentry

open List

/-- The sources have the same stem in the same folder, seen from a directory. -/
def SharesArtifact (dir source source' : String) : Prop :=
  Path.clean (Path.under dir (sourceFolder source)) =
      Path.clean (Path.under dir (sourceFolder source')) ∧
    sourceStem source = sourceStem source'

/-- Where the generated file of a source stands, if the directory stands at `here`. -/
def artifactPlace (here : Place) (dir source : String) : Place :=
  Place.ofPath here (artifactPath dir source)

/-! ## The sources of a unit -/

theorem nodup_distinct (ss : List String) : (distinct ss).Nodup := by
  have hfold : ∀ (ss seen : List String), seen.Nodup →
      (ss.foldl (fun seen s => if seen.contains s then seen else seen ++ [s]) seen).Nodup := by
    intro ss
    induction ss with
    | nil => exact fun _ h => h
    | cons s ss ih =>
      intro seen hseen
      rw [foldl_cons]
      apply ih
      by_cases hmem : s ∈ seen
      · rw [if_pos (contains_iff_mem.2 hmem)]
        exact hseen
      · rw [if_neg (fun h => hmem (contains_iff_mem.1 h))]
        rw [← concat_eq_append]
        exact hseen.concat hmem
  exact hfold ss [] nodup_nil

theorem nodup_emittedSources (module : String) (o : UnitOutput) :
    ((emittedFiles module o).map (·.1)).Nodup := by
  have hsources : (emittedFiles module o).map (·.1) = distinct (o.classes.map (·.file)) := by
    simp [emittedFiles, Function.comp_def]
  rw [hsources]
  exact nodup_distinct _

theorem plannedFiles_text {c : Config} (hformat : c.format = .text) (o : UnitOutput) :
    plannedFiles c o = (emittedFiles c.module o).map fun e =>
      { path := artifactPath c.directory e.1, content := Text.utf8 e.2, compress := false } := by
  unfold plannedFiles
  rw [hformat]

theorem utf8_inj {a b : String} (h : Text.utf8 a = Text.utf8 b) : a = b := by
  apply String.toByteArray_inj.1
  apply ByteArray.ext
  exact Array.toList_inj.1 h

/-! ## The last of them -/

/-- Some element with a property is the last one. -/
theorem exists_last {α : Type} {p : α → Prop} {l : List α} (h : ∃ x ∈ l, p x) :
    ∃ pre x post, l = pre ++ x :: post ∧ p x ∧ ∀ y ∈ post, ¬ p y := by
  induction l with
  | nil =>
    obtain ⟨x, hx, -⟩ := h
    cases hx
  | cons a l ih =>
    by_cases hrest : ∃ x ∈ l, p x
    · obtain ⟨pre, x, post, rfl, hx, hpost⟩ := ih hrest
      exact ⟨a :: pre, x, post, rfl, hx, hpost⟩
    · obtain ⟨x, hx, hpx⟩ := h
      rcases mem_cons.1 hx with rfl | hx
      · exact ⟨[], x, l, rfl, hpx, fun y hy hpy => hrest ⟨y, hy, hpy⟩⟩
      · exact absurd ⟨x, hx, hpx⟩ hrest

/-! ## What a call leaves at a place -/

section

variable {pack : Bytes → Bytes} {w w' : Written} {d d' : Directory} {fs pre post : List OutputFile}
  {f g : OutputFile} {r : Except CommandFailure (List String)} {paths : List String} {path : String}
  {p : Place} {content : Bytes}

theorem Writes.locate (h : Writes pack w d fs r w' d') (hlocate : d.locate path = .ok p) :
    d'.locate path = .ok p := by
  induction h with
  | done => exact hlocate
  | skip _ _ ih => exact ih hlocate
  | fail _ honly => exact honly.locate hlocate
  | write _ honly _ _ ih => exact ih (honly.locate hlocate)

theorem Writes.read_other (h : Writes pack w d fs r w' d')
    (hother : ∀ f ∈ fs, Place.ofPath d.here path ≠ Place.ofPath d.here f.path)
    (hread : d.read path = .ok content) : d'.read path = .ok content := by
  induction h with
  | done => exact hread
  | skip _ _ ih => exact ih (fun f hf => hother f (mem_cons_of_mem _ hf)) hread
  | fail _ honly => exact honly.read (hother _ mem_cons_self) hread
  | write _ honly _ _ ih =>
    apply ih _ (honly.read (hother _ mem_cons_self) hread)
    rw [honly.here]
    exact fun f hf => hother f (mem_cons_of_mem _ hf)

/-- If nothing is remembered and the call succeeds, every file is written. -/
theorem Writes.first (h : Writes pack none d (f :: fs) (.ok paths) w' d') :
    ∃ d₁ rest, Directory.ChangesOnly (Place.ofPath d.here f.path) d d₁ ∧
      d₁.read f.path = .ok (f.stored pack) ∧ Writes pack none d₁ fs (.ok rest) w' d' := by
  rcases h.cases_ok with ⟨⟨cache, entry, hnone, -⟩, -⟩ | ⟨d₁, now, rest, honly, hread, hrest⟩
  · cases hnone
  · exact ⟨d₁, rest, honly, hread, hrest⟩

theorem Writes.located (h : Writes pack none d fs (.ok paths) w' d') (hf : f ∈ fs) :
    ∃ p, d'.locate f.path = .ok p := by
  induction fs generalizing d paths with
  | nil => cases hf
  | cons g fs ih =>
    obtain ⟨d₁, rest, -, hread, hrest⟩ := h.first
    rcases mem_cons.1 hf with rfl | hf
    · obtain ⟨p, hlocate, -⟩ := Directory.read_eq_ok.1 hread
      exact ⟨p, hrest.locate hlocate⟩
    · exact ih hrest hf

/-- The last of the files at a place is what all their paths lead to. -/
theorem Writes.read_last (h : Writes pack none d (pre ++ f :: post) (.ok paths) w' d')
    (hpost : ∀ g ∈ post, Place.ofPath d.here f.path ≠ Place.ofPath d.here g.path)
    (hg : g ∈ pre ++ f :: post) (hplace : Place.ofPath d.here g.path = Place.ofPath d.here f.path) :
    d'.read g.path = .ok (f.stored pack) := by
  have hread : d'.read f.path = .ok (f.stored pack) := by
    clear hg hplace
    induction pre generalizing d paths with
    | nil =>
      obtain ⟨d₁, rest, honly, hread, hrest⟩ := h.first
      apply hrest.read_other _ hread
      rwa [honly.here]
    | cons _ pre ih =>
      obtain ⟨d₁, rest, honly, -, hrest⟩ := h.first
      apply ih hrest
      rwa [honly.here]
  obtain ⟨p, hlocate⟩ := h.located hg
  rw [← h.here] at hplace
  exact Directory.read_of_place hread hlocate hplace

end

/-- The generated files that stand at one place hold the text of the last of their sources. -/
def HoldsLast (d : Directory) (dir : String) (files : List (String × String)) : Prop :=
  ∀ {pre post : List (String × String)} {source text : String},
    files = pre ++ (source, text) :: post →
    (∀ e ∈ post, artifactPlace d.here dir source ≠ artifactPlace d.here dir e.1) →
    ∀ e ∈ files, artifactPlace d.here dir e.1 = artifactPlace d.here dir source →
      d.read (artifactPath dir e.1) = .ok (Text.utf8 text)

/-- Then all texts are there exactly if sources whose files stand at one place have one text. -/
theorem HoldsLast.all_iff {d : Directory} {dir : String} {files : List (String × String)}
    (hlast : HoldsLast d dir files) :
    (∀ e ∈ files, d.read (artifactPath dir e.1) = .ok (Text.utf8 e.2)) ↔
      ∀ e ∈ files, ∀ e' ∈ files,
        artifactPlace d.here dir e.1 = artifactPlace d.here dir e'.1 → e.2 = e'.2 := by
  constructor
  · intro h e he e' he' hplace
    obtain ⟨p, hlocate, -⟩ := Directory.read_eq_ok.1 (h e he)
    have hread := Directory.read_of_place (h e' he') hlocate hplace
    rw [h e he, Except.ok.injEq] at hread
    exact utf8_inj hread
  · intro h e he
    have hsome : ∃ x ∈ files, artifactPlace d.here dir e.1 = artifactPlace d.here dir x.1 :=
      ⟨e, he, rfl⟩
    obtain ⟨pre, ⟨source, text⟩, post, hfiles, hplace, hpost⟩ := exists_last hsome
    have htext : e.2 = text := h e he (source, text) (by simp [hfiles]) hplace
    rw [htext]
    exact hlast hfiles (fun x hx hx' => hpost x hx (hplace.trans hx')) e he hplace

/-- The sources of a unit are different, but two of them have one output path whenever they have the
same stem in the same folder. After a call that succeeds, on a host on which actions may fail, the
generated files of all sources that stand at one place hold the text of the last of these sources.
So the texts of all sources are there exactly if sources whose files stand at one place have one
text. -/
theorem artifacts_hold_last {pack : Bytes → Bytes} {c : Config} (hformat : c.format = .text)
    {o : UnitOutput} {w' : Written} {s s' : Unreliable} {paths : List String}
    (hcall : (writeFiles pack none (plannedFiles c o) : StateM Unreliable _).run s =
      ((.ok paths, w'), s')) :
    ((emittedFiles c.module o).map (·.1)).Nodup ∧
      (∀ source source', artifactPath c.directory source = artifactPath c.directory source' ↔
        SharesArtifact c.directory source source') ∧
      HoldsLast s'.directory c.directory (emittedFiles c.module o) ∧
      ((∀ e ∈ emittedFiles c.module o,
          s'.directory.read (artifactPath c.directory e.1) = .ok (Text.utf8 e.2)) ↔
        ∀ e ∈ emittedFiles c.module o, ∀ e' ∈ emittedFiles c.module o,
          artifactPlace s'.directory.here c.directory e.1 =
            artifactPlace s'.directory.here c.directory e'.1 → e.2 = e'.2) := by
  have hwrites := writes_of_run hcall
  have hlast : HoldsLast s'.directory c.directory (emittedFiles c.module o) := by
    intro pre post source text hfiles hpost e he hplace
    rw [hwrites.here] at hpost hplace
    rw [plannedFiles_text hformat, hfiles, map_append, map_cons] at hwrites
    have hmem := mem_map_of_mem (f := fun e : String × String => OutputFile.mk
      (artifactPath c.directory e.1) (Text.utf8 e.2) false) he
    rw [hfiles, map_append, map_cons] at hmem
    refine hwrites.read_last ?_ hmem hplace
    intro g hg
    obtain ⟨e, he, rfl⟩ := mem_map.1 hg
    exact hpost e he
  exact ⟨nodup_emittedSources c.module o, artifactPath_eq_iff c.directory, hlast, hlast.all_iff⟩

/-- The results for a lamp and its view, whose files have one stem. -/
def lampAndView : UnitOutput :=
  { classes := [emptyClass "src/lamp.ts" "Lamp", emptyClass "src/lamp.tsx" "LampView"]
    warnings := [], arena := Arena.empty, ids := 0, error := none }

/-- A call that succeeds in writing the lamp and its view. -/
def lampAndViewCall : (Except CommandFailure (List String) × Written) × Unreliable :=
  (writeFiles Gzip.pack none (plannedFiles sourcesConfig lampAndView) :
    StateM Unreliable _).run { Rehearsal.start Directory.empty [] with mishaps := [] }

/-- The view has taken the place of the lamp. -/
theorem artifacts_hold_last_lamp : (∃ paths, lampAndViewCall.1.1 = .ok paths) ∧
      artifactPath "out" "src/lamp.ts" = artifactPath "out" "src/lamp.tsx" ∧
      lampAndViewCall.2.directory.read (artifactPath "out" "src/lamp.tsx") =
        .ok (Text.utf8 (emittedFile "" [emptyClass "src/lamp.tsx" "LampView"])) ∧
      ¬ ∀ e ∈ emittedFiles "" lampAndView,
        lampAndViewCall.2.directory.read (artifactPath "out" e.1) = .ok (Text.utf8 e.2) := by
  have hok : lampAndViewCall.1.1.isOk = true := by decide +kernel
  rcases hcall : lampAndViewCall with ⟨⟨r, w'⟩, s'⟩
  rw [hcall] at hok
  cases r with
  | error e => cases hok
  | ok paths =>
    obtain ⟨-, hshared, hlast, hall⟩ := artifacts_hold_last (c := sourcesConfig) rfl hcall
    have hshares : SharesArtifact "out" "src/lamp.ts" "src/lamp.tsx" := by
      unfold SharesArtifact
      decide +kernel
    have hfiles : emittedFiles "" lampAndView =
        [("src/lamp.ts", emittedFile "" [emptyClass "src/lamp.ts" "Lamp"])] ++
          ("src/lamp.tsx", emittedFile "" [emptyClass "src/lamp.tsx" "LampView"]) :: [] := by
      decide +kernel
    have hlamp : ("src/lamp.ts", emittedFile "" [emptyClass "src/lamp.ts" "Lamp"]) ∈
        emittedFiles "" lampAndView := by simp [hfiles]
    have hview : ("src/lamp.tsx", emittedFile "" [emptyClass "src/lamp.tsx" "LampView"]) ∈
        emittedFiles "" lampAndView := by simp [hfiles]
    have hpath := (hshared _ _).2 hshares
    have hheld := hlast hfiles (fun e he => nomatch he) _ hview rfl
    refine ⟨⟨paths, rfl⟩, hpath, hheld, ?_⟩
    intro hpresent
    have hplace := congrArg (Place.ofPath s'.directory.here) hpath
    exact absurd (hall.1 hpresent _ hlamp _ hview hplace) (by decide +kernel)

end Componentry
