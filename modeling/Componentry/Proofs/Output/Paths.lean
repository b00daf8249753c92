import Componentry.Command.Output
import Componentry.Proofs.Host.Directory

/-!
# The paths of the files that are written

A source path is a folder, up to its last slash, then a stem, and then an extension from the last
dot on. The generated file keeps the folder and the stem; the extension is lost. So two sources have
the same generated file exactly if their stems are equal and their folders are the same one, seen
from the directory of the output (`artifactPath_eq_iff`).

The path of a file that is written tells whether it is compressed (`planned_compress`). Files with
one path and one content are therefore stored alike.
-/

namespace Componentry

open List Componentry.Path

namespace Path

/-! ## The last separator -/

/-- The part of a list up to its last `sep`, which is in it; empty if there is none. -/
def upToLast (sep : Char) (cs : List Char) : List Char := (cs.reverse.dropWhile (· ≠ sep)).reverse

theorem upToLast_append_afterLast (sep : Char) (cs : List Char) :
    upToLast sep cs ++ afterLast sep cs = cs := by
  unfold upToLast afterLast
  rw [← reverse_append, takeWhile_append_dropWhile, reverse_reverse]

theorem notMem_afterLast (sep : Char) (cs : List Char) : sep ∉ afterLast sep cs := by
  intro h
  have hmem : sep ∈ cs.reverse.takeWhile (· ≠ sep) := mem_reverse.1 h
  simpa using mem_takeWhile_imp hmem

theorem upToLast_cases (sep : Char) (cs : List Char) :
    upToLast sep cs = [] ∨ ∃ before, upToLast sep cs = before ++ [sep] := by
  unfold upToLast
  cases hdrop : cs.reverse.dropWhile (· ≠ sep) with
  | nil => exact Or.inl rfl
  | cons c rest =>
    -- what is dropped ends before a separator
    have hc : c = sep := by
      have hne : cs.reverse.dropWhile (· ≠ sep) ≠ [] := by
        rw [hdrop]
        exact cons_ne_nil c rest
      have hhead := head_dropWhile_not (fun x => decide (x ≠ sep)) hne
      simp only [hdrop, head_cons] at hhead
      simpa using hhead
    right
    exact ⟨rest.reverse, by rw [reverse_cons, hc]⟩

theorem upToLast_of_mem {sep : Char} {cs : List Char} (h : sep ∈ cs) :
    ∃ before, upToLast sep cs = before ++ [sep] := by
  rcases upToLast_cases sep cs with hnil | hbefore
  · have hsplit := upToLast_append_afterLast sep cs
    rw [hnil, nil_append] at hsplit
    rw [← hsplit] at h
    exact absurd h (notMem_afterLast sep cs)
  · exact hbefore

/-! ## Suffixes of texts -/

theorem endsWith_iff {s t : String} : s.endsWith t = true ↔ t.toList <:+ s.toList := by
  rw [String.endsWith_eq_endsWith_toSlice, String.Slice.endsWith_string_iff]
  simp

theorem trimSuffix_append (a b : String) : trimSuffix (a ++ b) b = a := by
  have hends : (a ++ b).endsWith b = true := by
    rw [endsWith_iff, String.toList_append]
    exact suffix_append _ _
  unfold trimSuffix
  rw [if_pos hends, String.length_append, Nat.add_sub_cancel, String.toList_append,
    ← String.length_toList, take_left, String.ofList_toList]

/-- A suffix that is not longer than the end of a text is a suffix of that end. -/
theorem endsWith_append {a b x : String} (hx : x.length ≤ b.length) :
    (a ++ b).endsWith x = b.endsWith x := by
  rw [Bool.eq_iff_iff, endsWith_iff, endsWith_iff, String.toList_append]
  constructor
  · intro h
    apply suffix_of_suffix_length_le h (suffix_append _ _)
    rw [String.length_toList, String.length_toList]
    exact hx
  · intro h
    exact h.trans (suffix_append _ _)

end Path

/-! ## Source paths -/

/-- The path of a source up to its last slash. -/
def sourceFolder (source : String) : String := String.ofList (upToLast '/' source.toList)

/-- The name of a source without its folder and its extension. -/
def sourceStem (source : String) : String :=
  let name := afterLast '/' source.toList
  String.ofList (if '.' ∈ name then (upToLast '.' name).dropLast else name)

theorem opens_sourceFolder (source : String) : Path.Opens (sourceFolder source) := by
  unfold sourceFolder
  rcases upToLast_cases '/' source.toList with hnil | ⟨before, hbefore⟩
  · left
    rw [hnil]
  · right
    exact ⟨String.ofList before, by rw [hbefore, String.ofList_append]⟩

theorem noSlash_sourceStem (source : String) : '/' ∉ (sourceStem source).toList := by
  have hname : '/' ∉ afterLast '/' source.toList := notMem_afterLast _ _
  intro hmem
  apply hname
  unfold sourceStem at hmem
  rw [String.toList_ofList] at hmem
  split at hmem
  · -- the stem is a part of the name
    rw [← upToLast_append_afterLast '.' (afterLast '/' source.toList)]
    exact mem_append_left _ (mem_of_mem_dropLast hmem)
  · exact hmem

/-- A source path is its folder, its stem and its extension. -/
theorem source_eq (source : String) :
    source = sourceFolder source ++ sourceStem source ++ ext source := by
  have hfolder := upToLast_append_afterLast '/' source.toList
  have hname := upToLast_append_afterLast '.' (afterLast '/' source.toList)
  apply String.toList_inj.1
  unfold sourceFolder sourceStem ext
  by_cases hdot : '.' ∈ afterLast '/' source.toList
  · obtain ⟨before, hbefore⟩ := upToLast_of_mem hdot
    rw [hbefore, append_assoc, singleton_append] at hname
    simp only [hdot, hbefore, contains_eq_mem, decide_true, if_true, dropLast_concat,
      String.toList_append, String.toList_ofList, append_assoc, hname, hfolder]
  · simp only [hdot, contains_eq_mem, decide_false, Bool.false_eq_true, if_false,
      String.toList_append, String.toList_ofList, String.toList_empty, append_nil, hfolder]

/-- What follows the stem in the name of a generated file. -/
def artifactEnd : String := ".flamekit.ts"

theorem isName_append_artifactEnd {stem : String} (h : '/' ∉ stem.toList) :
    Path.IsName (stem ++ artifactEnd) := by
  have hlong : 12 ≤ (stem ++ artifactEnd).length := by
    rw [String.length_append]
    exact Nat.le_add_left 12 _
  have hne : ∀ t : String, t.length < 12 → stem ++ artifactEnd ≠ t := by
    rintro t hshort rfl
    omega
  refine ⟨hne _ (by decide), hne _ (by decide), hne _ (by decide), ?_⟩
  rw [String.toList_append, mem_append, not_or]
  exact ⟨h, by decide⟩

theorem artifactPath_eq_clean (dir source : String) : artifactPath dir source =
      clean (under dir (sourceFolder source) ++ (sourceStem source ++ artifactEnd)) := by
  have htrim := trimSuffix_append (sourceFolder source ++ sourceStem source)
    (ext source)
  rw [← source_eq source] at htrim
  have hname := isName_append_artifactEnd (noSlash_sourceStem source)
  unfold artifactPath
  rw [htrim, String.append_assoc]
  change join [dir, sourceFolder source ++ (sourceStem source ++ artifactEnd)] = _
  rw [join_pair dir ?_, under_append]
  intro hempty
  exact hname.ne_empty (String.append_eq_empty_iff.1 hempty).2

/-- Two sources have the same generated file exactly if they have the same stem in the same
folder. -/
theorem artifactPath_eq_iff (dir source source' : String) :
    artifactPath dir source = artifactPath dir source' ↔
      clean (under dir (sourceFolder source)) =
          clean (under dir (sourceFolder source')) ∧
        sourceStem source = sourceStem source' := by
  rw [artifactPath_eq_clean, artifactPath_eq_clean]
  rw [clean_concat_eq_iff ((opens_sourceFolder source).under dir)
    ((opens_sourceFolder source').under dir)
    (isName_append_artifactEnd (noSlash_sourceStem source))
    (isName_append_artifactEnd (noSlash_sourceStem source'))]
  rw [String.append_left_inj]

/-! ## Planned files -/

/-- A path ends like its last name. -/
theorem clean_endsWith {p e x : String} (hp : Opens p) (he : IsName e) (hx : x.length ≤ e.length) :
    (clean (p ++ e)).endsWith x = e.endsWith x := by
  rw [clean_concat hp he, ← String.empty_append (s := e), ← written_append,
    endsWith_append hx, String.empty_append]

theorem artifactPath_endsWith (dir source : String) :
    (artifactPath dir source).endsWith ".gz" = false := by
  have hname := isName_append_artifactEnd (noSlash_sourceStem source)
  have hlong : (".gz" : String).length ≤ (sourceStem source ++ artifactEnd).length := by
    rw [String.length_append]
    exact Nat.le_add_left_of_le (by decide)
  rw [artifactPath_eq_clean, clean_endsWith ((opens_sourceFolder source).under dir) hname hlong,
    endsWith_append (by decide), Bool.eq_false_iff, ne_eq, endsWith_iff]
  decide

theorem documentPath_endsWith (dir : String) (compress : Bool) :
    (join [dir, documentName] ++ if compress then ".gz" else "").endsWith ".gz" =
      compress := by
  cases compress with
  | true =>
    rw [if_pos rfl, endsWith_iff, String.toList_append]
    exact suffix_append _ _
  | false =>
    have hname : IsName documentName := ⟨by decide, by decide, by decide, by decide⟩
    have hopens : Opens (under dir "") := Path.Opens.under (Or.inl rfl) dir
    rw [if_neg (by decide), String.append_empty, join_pair dir hname.ne_empty,
      ← String.empty_append (s := documentName), under_append, clean_endsWith hopens hname
      (by decide), Bool.eq_false_iff, ne_eq, endsWith_iff]
    decide

variable {c : Config} {o : UnitOutput} {f : OutputFile}

theorem mem_plannedFiles (h : f ∈ plannedFiles c o) :
    (f.path = join [c.directory, documentName] ++ (if c.compress then ".gz" else "") ∧
        f.compress = c.compress) ∨
      (∃ source, f.path = artifactPath c.directory source ∧ f.compress = false) := by
  unfold plannedFiles at h
  split at h
  · left
    rw [mem_singleton.1 h]
    exact ⟨rfl, rfl⟩
  · right
    obtain ⟨⟨source, text⟩, -, rfl⟩ := mem_map.1 h
    exact ⟨source, rfl, rfl⟩

/-- The path tells whether a file is compressed. -/
theorem planned_compress (h : f ∈ plannedFiles c o) : f.compress = f.path.endsWith ".gz" := by
  rcases mem_plannedFiles h with ⟨hpath, hcompress⟩ | ⟨source, hpath, hcompress⟩
  · rw [hcompress, hpath, documentPath_endsWith]
  · rw [hcompress, hpath, artifactPath_endsWith]

end Componentry
