import Componentry.Text.Path
import Mathlib

/-!
# Shortest paths

`Path.clean` carries out the dots of a path. What is left is `Tidy`: some steps up, none in a path
from the root, and then names. A tidy list of elements can be read off the path that is written from
it (`elements_written`, `isRooted_written`), so two paths have the same shortest form exactly if
they lead from the same start through the same elements (`clean_eq_iff`).

A name at the end of a path stays at the end (`clean_concat`): no dot of the path before it touches
it.
-/

namespace Componentry.Path

open List

variable {e p s : String} {es : List String} {rooted : Bool}

/-! ## Parts and elements -/

theorem mem_splitOn {a : Char} : ∀ {cs l : List Char}, l ∈ cs.splitOn a → a ∉ l
  | [], l, h => by
    rw [splitOn_nil, mem_singleton] at h
    simp [h]
  | c :: cs, l, h => by
    rw [splitOn_cons_eq_if_modifyHead] at h
    split at h
    · rcases mem_cons.1 h with rfl | h
      · simp
      · exact mem_splitOn h
    · rename_i hc
      -- the character joins the first group, and it is no separator
      obtain ⟨first, rest, hsplit⟩ := exists_cons_of_ne_nil (splitOn_ne_nil a cs)
      have hgroups : ∀ l' ∈ cs.splitOn a, a ∉ l' := fun _ hl => mem_splitOn hl
      rw [hsplit] at h hgroups
      rw [modifyHead_cons] at h
      rcases mem_cons.1 h with rfl | h
      · have hfirst : a ∉ first := hgroups first mem_cons_self
        have hne : a ≠ c := by
          rintro rfl
          simp at hc
        simp [hne, hfirst]
      · exact hgroups l (mem_cons_of_mem _ h)

theorem parts_append_slash (a b : String) : parts (a ++ "/" ++ b) = parts a ++ parts b := by
  have hlist : (a ++ "/" ++ b).toList = a.toList ++ '/' :: b.toList := by simp
  unfold parts
  rw [hlist, splitOn_append_cons_self, map_append]

theorem parts_of_noSlash (h : '/' ∉ s.toList) : parts s = [s] := by
  unfold parts
  rw [splitOn_eq_singleton h]
  simp

theorem noSlash_of_mem_parts (h : e ∈ parts s) : '/' ∉ e.toList := by
  obtain ⟨l, hl, rfl⟩ := mem_map.1 h
  rw [String.toList_ofList]
  exact mem_splitOn hl

theorem parts_intercalate (hne : es ≠ []) (h : ∀ e ∈ es, '/' ∉ e.toList) :
    parts (String.intercalate "/" es) = es := by
  have hlists : ∀ l ∈ es.map String.toList, '/' ∉ l := by
    intro l hl
    obtain ⟨e, he, rfl⟩ := mem_map.1 hl
    exact h e he
  have hsplit := splitOn_intercalate '/' hlists (by simpa using hne)
  have hslash : ("/" : String).toList = ['/'] := by simp
  unfold parts
  rw [String.toList_intercalate, hslash, hsplit, map_map]
  simp

theorem elements_append_slash (a b : String) :
    elements (a ++ "/" ++ b) = elements a ++ elements b := by
  unfold elements
  rw [parts_append_slash, filter_append]

theorem elements_empty : elements "" = [] := by
  unfold elements
  rw [parts_of_noSlash (by simp)]
  simp

theorem elements_of_noSlash (hne : s ≠ "") (h : '/' ∉ s.toList) : elements s = [s] := by
  unfold elements
  rw [parts_of_noSlash h]
  simp [hne]

theorem noSlash_of_mem_elements (h : e ∈ elements s) : '/' ∉ e.toList :=
  noSlash_of_mem_parts (mem_of_mem_filter h)

theorem isRooted_iff : isRooted s = true ↔ ∃ cs, s.toList = '/' :: cs := by
  unfold isRooted
  have hslash : ("/" : String).toList = ['/'] := by simp
  rw [String.startsWith_string_iff, hslash]
  constructor
  · rintro ⟨cs, hcs⟩
    exact ⟨cs, hcs.symm⟩
  · rintro ⟨cs, hcs⟩
    exact ⟨cs, hcs.symm⟩

/-! ## Dots carried out -/

/-- A name: neither empty nor dots, and no slash in it. -/
structure IsName (e : String) : Prop where
  ne_empty : e ≠ ""
  ne_dot : e ≠ "."
  ne_up : e ≠ ".."
  noSlash : '/' ∉ e.toList

/-- Steps up, which only a path that is not rooted has, and then names. -/
def Tidy (rooted : Bool) (es : List String) : Prop :=
  ∃ n names, es = List.replicate n ".." ++ names ∧ (rooted = true → n = 0) ∧
    ∀ e ∈ names, IsName e

theorem tidy_nil (rooted : Bool) : Tidy rooted [] := ⟨0, [], rfl, fun _ => rfl, by simp⟩

theorem Tidy.concat (h : Tidy rooted es) (he : IsName e) : Tidy rooted (es ++ [e]) := by
  obtain ⟨n, names, rfl, hn, hnames⟩ := h
  refine ⟨n, names ++ [e], by rw [append_assoc], hn, ?_⟩
  intro x hx
  rcases mem_append.1 hx with hx | hx
  · exact hnames x hx
  · rw [mem_singleton.1 hx]
    exact he

/-- A tidy list ends in a name or is made of steps up. -/
theorem Tidy.cases_concat (h : Tidy rooted (es ++ [e])) : (IsName e ∧ Tidy rooted es) ∨
      (rooted = false ∧ e = ".." ∧ Tidy false (es ++ [e] ++ [".."])) := by
  obtain ⟨n, names, heq, hn, hnames⟩ := h
  rcases eq_nil_or_concat names with rfl | ⟨init, last, rfl⟩
  · right
    rw [append_nil] at heq
    have hup : e = ".." := by
      have hmem : e ∈ replicate n ".." := by
        rw [← heq]
        simp
      exact (mem_replicate.1 hmem).2
    have hpos : n ≠ 0 := by
      rintro rfl
      simp at heq
    refine ⟨?_, hup, n + 1, [], ?_, by simp, by simp⟩
    · rw [Bool.eq_false_iff]
      exact fun hr => hpos (hn hr)
    · rw [heq, append_nil, replicate_succ']
  · left
    rw [concat_eq_append, ← append_assoc] at heq
    obtain ⟨rfl, hlast⟩ := append_inj' heq rfl
    obtain rfl := singleton_inj.1 hlast
    refine ⟨hnames e (by simp), n, init, rfl, hn, ?_⟩
    exact fun x hx => hnames x (by simp [hx])

theorem Tidy.noSlash (h : Tidy rooted es) : ∀ e ∈ es, e ≠ "" ∧ e ≠ "." ∧ '/' ∉ e.toList := by
  obtain ⟨n, names, rfl, -, hnames⟩ := h
  intro e he
  rcases mem_append.1 he with he | he
  · rw [(mem_replicate.1 he).2]
    decide
  · exact ⟨(hnames e he).ne_empty, (hnames e he).ne_dot, (hnames e he).noSlash⟩

/-- What one more element does to the elements so far, which are kept in reverse. -/
def resolveDot (rooted : Bool) (done : List String) (e : String) : List String :=
  if e = "." || e = "" then done
  else if e = ".." then
    match done with
    | [] => if rooted then [] else [".."]
    | last :: before => if last = ".." then ".." :: last :: before else before
  else e :: done

theorem resolveDots_eq_foldl (rooted : Bool) : ∀ (es done : List String),
    resolveDots rooted done es = es.foldl (resolveDot rooted) done
  | [], done => by
    unfold resolveDots
    rfl
  | e :: es, done => by
    rw [foldl_cons, ← resolveDots_eq_foldl rooted es]
    rw [resolveDots.eq_def]
    unfold resolveDot
    simp only
    split
    · rfl
    · split
      · cases done with
        | nil => rfl
        | cons last before =>
          simp only
          split
          · rfl
          · rfl
      · rfl

theorem Tidy.resolveDot {done : List String} (h : Tidy rooted done.reverse) (he : '/' ∉ e.toList) :
    Tidy rooted (resolveDot rooted done e).reverse := by
  unfold Path.resolveDot
  by_cases hdot : (e = "." || e = "") = true
  · rw [if_pos hdot]
    exact h
  · rw [if_neg hdot]
    simp only [Bool.or_eq_true, decide_eq_true_eq, not_or] at hdot
    by_cases hup : e = ".."
    · rw [if_pos hup]
      cases done with
      | nil =>
        cases rooted with
        | true => exact tidy_nil true
        | false => exact ⟨1, [], rfl, by simp, by simp⟩
      | cons last before =>
        -- a step up takes a name away, and stays where only steps up lie before it
        rw [reverse_cons] at h
        simp only
        rcases h.cases_concat with ⟨hname, htidy⟩ | ⟨rfl, hlast, htidy⟩
        · rw [if_neg hname.ne_up]
          exact htidy
        · rw [if_pos hlast]
          simpa using htidy
    · rw [if_neg hup, reverse_cons]
      exact h.concat ⟨hdot.2, hdot.1, hup, he⟩

theorem tidy_resolveDots (rooted : Bool) {done : List String} (hes : ∀ e ∈ es, '/' ∉ e.toList)
    (hdone : Tidy rooted done.reverse) : Tidy rooted (resolveDots rooted done es).reverse := by
  rw [resolveDots_eq_foldl]
  induction es generalizing done with
  | nil => exact hdone
  | cons e es ih =>
    rw [foldl_cons]
    apply ih
    · exact fun x hx => hes x (mem_cons_of_mem _ hx)
    · exact hdone.resolveDot (hes e mem_cons_self)

theorem resolveDots_concat (rooted : Bool) (es done : List String) (he : IsName e) :
    resolveDots rooted done (es ++ [e]) = e :: resolveDots rooted done es := by
  rw [resolveDots_eq_foldl, resolveDots_eq_foldl, foldl_append]
  simp [resolveDot, he.ne_dot, he.ne_empty, he.ne_up]

/-- The elements of the shortest form of a path. -/
def resolved (s : String) : List String := (resolveDots (isRooted s) [] (elements s)).reverse

theorem tidy_resolved (s : String) : Tidy (isRooted s) (resolved s) :=
  tidy_resolveDots (isRooted s) (fun _ he => noSlash_of_mem_elements he) (tidy_nil _)

/-! ## Written paths -/

/-- The path with these elements. -/
def written (rooted : Bool) (es : List String) : String :=
  if rooted then "/" ++ String.intercalate "/" es
  else if es = [] then "."
  else String.intercalate "/" es

theorem toList_intercalate_cons (e : String) (es : List String) :
    ∃ cs, (String.intercalate "/" (e :: es)).toList = e.toList ++ cs := by
  cases es with
  | nil => exact ⟨[], by simp⟩
  | cons x xs =>
    refine ⟨"/".toList ++ (String.intercalate "/" (x :: xs)).toList, ?_⟩
    rw [String.intercalate_cons_cons]
    simp

theorem intercalate_ne_empty (h : Tidy rooted es) (hne : es ≠ []) :
    String.intercalate "/" es ≠ "" := by
  obtain ⟨e, rest, rfl⟩ := exists_cons_of_ne_nil hne
  obtain ⟨cs, hcs⟩ := toList_intercalate_cons e rest
  intro hempty
  rw [hempty] at hcs
  have he : e.toList = [] := by
    have := hcs.symm
    simp only [String.toList_empty, append_eq_nil_iff] at this
    exact this.1
  exact (h.noSlash e mem_cons_self).1 (String.toList_eq_nil_iff.1 he)

theorem clean_eq_written (s : String) : clean s = written (isRooted s) (resolved s) := by
  unfold clean written
  simp only
  split
  · rfl
  · change (if String.intercalate "/" (resolved s) = "" then _ else _) = _
    by_cases hne : resolved s = []
    · rw [hne]
      simp
    · rw [if_neg (intercalate_ne_empty (tidy_resolved s) hne), if_neg hne]
      rfl

theorem isRooted_written (h : Tidy rooted es) : isRooted (written rooted es) = rooted := by
  cases rooted with
  | true =>
    rw [isRooted_iff]
    exact ⟨(String.intercalate "/" es).toList, by simp [written]⟩
  | false =>
    rw [Bool.eq_false_iff]
    intro hroot
    obtain ⟨cs, hcs⟩ := isRooted_iff.1 hroot
    cases es with
    | nil => simp [written] at hcs
    | cons e rest =>
      -- the path begins with the first character of its first element
      obtain ⟨more, hmore⟩ := toList_intercalate_cons e rest
      obtain ⟨hempty, -, hslash⟩ := h.noSlash e mem_cons_self
      have hlist : (written false (e :: rest)).toList = e.toList ++ more := by
        simpa [written] using hmore
      rw [hlist] at hcs
      cases he : e.toList with
      | nil => exact hempty (String.toList_eq_nil_iff.1 he)
      | cons c tail =>
        rw [he, cons_append, List.cons.injEq] at hcs
        rw [he, hcs.1] at hslash
        simp at hslash

theorem elements_intercalate (h : Tidy rooted es) (hne : es ≠ []) :
    elements (String.intercalate "/" es) = es := by
  unfold elements
  rw [parts_intercalate hne fun e he => (h.noSlash e he).2.2]
  rw [filter_eq_self]
  intro e he
  simpa using (h.noSlash e he).1

theorem elements_written (h : Tidy rooted es) :
    elements (written rooted es) = if rooted = false ∧ es = [] then ["."] else es := by
  by_cases hne : es = []
  · subst hne
    cases rooted with
    | true => decide
    | false => decide
  · rw [if_neg (by simp [hne])]
    cases rooted with
    | true =>
      have hslash : written true es = "" ++ "/" ++ String.intercalate "/" es := by
        simp [written]
      rw [hslash, elements_append_slash, elements_empty, nil_append, elements_intercalate h hne]
    | false =>
      have hplain : written false es = String.intercalate "/" es := by
        simp [written, hne]
      rw [hplain, elements_intercalate h hne]

/-- A written path tells where it starts and what its elements are. -/
theorem written_inj {rooted' : Bool} {es' : List String} (h : Tidy rooted es)
    (h' : Tidy rooted' es') (heq : written rooted es = written rooted' es') :
    rooted = rooted' ∧ es = es' := by
  have hroot : rooted = rooted' := by
    rw [← isRooted_written h, heq, isRooted_written h']
  subst hroot
  have helements := elements_written h
  rw [heq, elements_written h'] at helements
  -- the path `.` has no elements, and no tidy list has a dot
  have hdot : ∀ {xs : List String}, Tidy rooted xs → xs ≠ ["."] := by
    rintro xs hxs rfl
    exact (hxs.noSlash "." (by simp)).2.1 rfl
  refine ⟨rfl, ?_⟩
  split at helements
  · rename_i hnil'
    split at helements
    · rename_i hnil
      rw [hnil.2, hnil'.2]
    · exact absurd helements.symm (hdot h)
  · split at helements
    · exact absurd helements (hdot h')
    · exact helements.symm

/-- Two paths have the same shortest form exactly if they start and lead alike. -/
theorem clean_eq_iff {a b : String} :
    clean a = clean b ↔ isRooted a = isRooted b ∧ resolved a = resolved b := by
  rw [clean_eq_written, clean_eq_written]
  constructor
  · exact written_inj (tidy_resolved a) (tidy_resolved b)
  · rintro ⟨hroot, hes⟩
    rw [hroot, hes]

/-! ## A name at the end -/

/-- The path is empty or ends with a slash, so that a name may follow. -/
def Opens (p : String) : Prop := p = "" ∨ ∃ q, p = q ++ "/"

theorem Opens.elements (h : Opens p) (he : IsName e) : elements (p ++ e) = elements p ++ [e] := by
  rcases h with rfl | ⟨q, rfl⟩
  · rw [elements_empty, String.empty_append, elements_of_noSlash he.ne_empty he.noSlash]
    rfl
  · have hend : Path.elements (q ++ "/") = Path.elements q := by
      have := elements_append_slash q ""
      rwa [elements_empty, append_nil, String.append_empty] at this
    rw [hend, elements_append_slash, elements_of_noSlash he.ne_empty he.noSlash]

theorem Opens.isRooted (h : Opens p) (he : IsName e) : isRooted (p ++ e) = isRooted p := by
  rw [Bool.eq_iff_iff, isRooted_iff, isRooted_iff, String.toList_append]
  rcases h with rfl | ⟨q, rfl⟩
  · constructor
    · rintro ⟨cs, hcs⟩
      have hmem : '/' ∈ e.toList := by
        rw [String.toList_empty, nil_append] at hcs
        rw [hcs]
        exact mem_cons_self
      exact absurd hmem he.noSlash
    · rintro ⟨cs, hcs⟩
      simp at hcs
  · cases hq : q.toList with
    | nil => simp [hq]
    | cons c cs => simp [hq]

theorem Opens.resolved (h : Opens p) (he : IsName e) : resolved (p ++ e) = resolved p ++ [e] := by
  unfold Path.resolved
  rw [h.isRooted he, h.elements he, resolveDots_concat _ _ _ he, reverse_cons]

/-- A name at the end of a path stays at its end. -/
theorem clean_concat (h : Opens p) (he : IsName e) :
    clean (p ++ e) = written (isRooted p) (resolved p ++ [e]) := by
  rw [clean_eq_written, h.isRooted he, h.resolved he]

theorem clean_concat_eq_iff {q : String} (hp : Opens p) (hq : Opens q) {f : String}
    (he : IsName e) (hf : IsName f) :
    clean (p ++ e) = clean (q ++ f) ↔ clean p = clean q ∧ e = f := by
  rw [clean_eq_iff, clean_eq_iff, hp.isRooted he, hq.isRooted hf, hp.resolved he, hq.resolved hf]
  constructor
  · rintro ⟨hroot, hes⟩
    obtain ⟨hinit, hlast⟩ := append_inj' hes rfl
    exact ⟨⟨hroot, hinit⟩, singleton_inj.1 hlast⟩
  · rintro ⟨⟨hroot, hes⟩, rfl⟩
    rw [hes]
    exact ⟨hroot, rfl⟩

/-- What is written behind a path is written behind its last element. -/
theorem written_append (rooted : Bool) (es : List String) (e x : String) :
    written rooted (es ++ [e]) ++ x = written rooted (es ++ [e ++ x]) := by
  have hbody : String.intercalate "/" (es ++ [e]) ++ x =
      String.intercalate "/" (es ++ [e ++ x]) := by
    induction es with
    | nil => simp
    | cons y ys ih =>
      rw [cons_append, cons_append, String.intercalate_cons_of_ne_nil (by simp),
        String.intercalate_cons_of_ne_nil (by simp), String.append_assoc, ih]
  unfold written
  cases rooted with
  | true => simp [String.append_assoc, hbody]
  | false => simp [hbody]

/-- A path seen from a directory. -/
def under (dir path : String) : String := if dir = "" then path else dir ++ "/" ++ path

theorem under_append (dir p e : String) : under dir (p ++ e) = under dir p ++ e := by
  unfold under
  split
  · rfl
  · rw [← String.append_assoc]

theorem Opens.under (h : Opens p) (dir : String) : Opens (under dir p) := by
  unfold Path.under
  split
  · exact h
  · rcases h with rfl | ⟨q, rfl⟩
    · exact Or.inr ⟨dir, by simp⟩
    · exact Or.inr ⟨dir ++ "/" ++ q, by rw [← String.append_assoc]⟩

theorem join_pair (dir : String) {path : String} (h : path ≠ "") :
    join [dir, path] = clean (under dir path) := by
  unfold join under
  by_cases hdir : dir = ""
  · simp [hdir, h]
  · simp [hdir, h, String.append_assoc]

end Componentry.Path
