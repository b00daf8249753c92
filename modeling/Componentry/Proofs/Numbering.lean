import Componentry.Program.Load
import Componentry.Unit
import Mathlib

/-!
# Numbers of declarations

Declarations are told apart by their numbers, so everything that is looked up by number rests on
one fact about loading: no two declarations of a loaded program have the same number
(`loadWith_numbered`).

Loading counts upwards. `Loads m n a n'` says that the step `m` succeeds with the count at `n` and
leaves it at `n'`; a step is `Quiet` if it does not count. Each declaration takes the number at the
count and moves it on, so the numbers of what a step declares are distinct and lie between the count
before and the count after (`Between`), and steps in sequence put such stretches one after another.
-/

namespace Componentry

open List SourceFile

open scoped List

variable {n n' : Nat} {text : String} {p : Program}

variable {α β : Type}

/-! ## Steps of loading -/

/-- The step succeeds with the count at `n`: it gives `a` and leaves the count at `n'`. -/
def Loads (m : Load α) (n : Nat) (a : α) (n' : Nat) : Prop := m.run n = .ok (a, n')

theorem loads_pure {a b : α} : Loads (pure a) n b n' ↔ a = b ∧ n = n' := by
  show Except.ok (a, n) = _ ↔ _
  simp

theorem loads_bind {m : Load α} {f : α → Load β} {b : β} :
    Loads (m >>= f) n b n' ↔ ∃ a k, Loads m n a k ∧ Loads (f a) k b n' := by
  unfold Loads
  rw [StateT.run_bind]
  rcases m.run n with _ | ⟨a, k⟩ <;> simp [bind, Except.bind]

theorem not_loads_fail {loc : Location} {p : LoadProblem} {a : α} :
    ¬ Loads (Load.fail loc p) n a n' := by
  intro h
  cases h

/-- The step does not count. -/
def Quiet (m : Load α) : Prop := ∀ (n n' : Nat) (a : α), Loads m n a n' → n' = n

theorem Quiet.pure (a : α) : Quiet (Pure.pure a : Load α) := by
  intro n n' b h
  exact (loads_pure.1 h).2.symm

theorem Quiet.bind {m : Load α} {f : α → Load β} (hm : Quiet m) (hf : ∀ a, Quiet (f a)) :
    Quiet (m >>= f) := by
  intro n n' b h
  obtain ⟨a, k, ha, hb⟩ := loads_bind.1 h
  rw [hf a _ _ _ hb, hm _ _ _ ha]

theorem Quiet.fail (loc : Location) (p : LoadProblem) : Quiet (Load.fail loc p : Load α) := by
  intro n n' a h
  exact absurd h not_loads_fail

theorem Quiet.listMapM {f : α → Load β} (hf : ∀ a, Quiet (f a)) : ∀ xs : List α, Quiet (xs.mapM f)
  | [] => by
    rw [mapM_nil]
    exact .pure _
  | x :: xs => by
    rw [mapM_cons]
    exact .bind (hf x) fun b => .bind (Quiet.listMapM hf xs) fun bs => .pure _

theorem Quiet.optionMapM {f : α → Load β} (hf : ∀ a, Quiet (f a)) : ∀ x : Option α, Quiet (x.mapM f)
  | none => Quiet.pure none
  | some x => by
    show Quiet (some <$> f x)
    rw [← bind_pure_comp]
    exact .bind (hf x) fun b => .pure _

theorem quiet_text (rule : Snippet.Grammar → Snippet.Parse α) (e : Description.Excerpt) :
    Quiet (Load.text rule e) := by
  unfold Load.text
  split
  · exact .pure _
  · exact .fail _ _
  · exact .fail _ _

/-! ## Stretches of numbers -/

/-- Distinct numbers from `n` up to but not including `n'`. -/
structure Between (n n' : Nat) (numbers : List Nat) : Prop where
  le : n ≤ n'
  nodup : numbers.Nodup
  lower : ∀ i ∈ numbers, n ≤ i
  upper : ∀ i ∈ numbers, i < n'

theorem Between.nil (n : Nat) : Between n n [] := ⟨le_refl n, nodup_nil, by simp, by simp⟩

theorem Between.singleton (n : Nat) : Between n (n + 1) [n] :=
  ⟨Nat.le_succ n, nodup_singleton n, by simp, by simp⟩

theorem Between.append {k : Nat} {xs ys : List Nat} (hx : Between n k xs) (hy : Between k n' ys) :
    Between n n' (xs ++ ys) := by
  refine ⟨hx.le.trans hy.le, ?_, ?_, ?_⟩
  · rw [nodup_append]
    refine ⟨hx.nodup, hy.nodup, ?_⟩
    intro a ha b hb hab
    have := hx.upper a ha
    have := hy.lower b hb
    omega
  · intro i hi
    obtain hi | hi := mem_append.1 hi
    · exact hx.lower i hi
    · exact hx.le.trans (hy.lower i hi)
  · intro i hi
    obtain hi | hi := mem_append.1 hi
    · exact (hx.upper i hi).trans_le hy.le
    · exact hy.upper i hi

theorem Between.perm {xs ys : List Nat} (h : Between n n' xs) (hp : xs.Perm ys) : Between n n' ys :=
  ⟨h.le, hp.nodup_iff.1 h.nodup, fun i hi => h.lower i (hp.mem_iff.2 hi),
    fun i hi => h.upper i (hp.mem_iff.2 hi)⟩

/-- The step declares what has the numbers `numbers a`, counting on as it does. -/
def Counts (numbers : α → List Nat) (m : Load α) : Prop :=
  ∀ (n n' : Nat) (a : α), Loads m n a n' → Between n n' (numbers a)

theorem Counts.listMapM {f : α → Load β} {numbers : β → List Nat}
    (hf : ∀ a, Counts numbers (f a)) : ∀ xs : List α,
    Counts (fun bs : List β => bs.flatMap numbers) (xs.mapM f)
  | [] => by
    intro n n' bs h
    rw [mapM_nil] at h
    obtain ⟨rfl, rfl⟩ := loads_pure.1 h
    exact .nil n
  | x :: xs => by
    intro n n' bs h
    rw [mapM_cons] at h
    obtain ⟨b, k, hb, h⟩ := loads_bind.1 h
    obtain ⟨cs, k', hcs, h⟩ := loads_bind.1 h
    obtain ⟨rfl, rfl⟩ := loads_pure.1 h
    exact (hf x _ _ _ hb).append (Counts.listMapM hf xs _ _ _ hcs)

theorem loads_declaration {file : String} {kind : DeclKind} {name : Description.Excerpt} {k : Nat}
    {d : Declaration} (h : Loads (Load.declaration file kind name) n d k) :
    k = n + 1 ∧ d.id = n ∧ d.kind = kind := by
  unfold Load.declaration at h
  split at h
  · cases h
    exact ⟨rfl, rfl, rfl⟩
  · exact absurd h not_loads_fail

/-- The step does not count, and what it gives is declared by `d`. -/
def Finishes (decl : β → Declaration) (d : Declaration) (m : Load β) : Prop :=
  ∀ (n n' : Nat) (b : β), Loads m n b n' → n' = n ∧ decl b = d

theorem Finishes.pure {decl : β → Declaration} {b : β} :
    Finishes decl (decl b) (Pure.pure b : Load β) := by
  intro n n' b' h
  obtain ⟨rfl, rfl⟩ := loads_pure.1 h
  exact ⟨rfl, rfl⟩

theorem Finishes.bind {decl : β → Declaration} {d : Declaration} {m : Load α} {f : α → Load β}
    (hm : Quiet m) (hf : ∀ a, Finishes decl d (f a)) : Finishes decl d (m >>= f) := by
  intro n n' b h
  obtain ⟨a, k, ha, hb⟩ := loads_bind.1 h
  obtain rfl := hm _ _ _ ha
  exact hf a _ _ _ hb

/-- The step declares one thing of the kind, with the number at the count. -/
def Declares (kind : DeclKind) (decl : β → Declaration) (m : Load β) : Prop :=
  ∀ (n n' : Nat) (b : β), Loads m n b n' → n' = n + 1 ∧ (decl b).id = n ∧ (decl b).kind = kind

theorem Finishes.declares {file : String} {kind : DeclKind} {name : Description.Excerpt}
    {f : Declaration → Load β} {decl : β → Declaration} (hf : ∀ d, Finishes decl d (f d)) :
    Declares kind decl (Load.declaration file kind name >>= f) := by
  intro n n' b h
  obtain ⟨d, k, hd, hb⟩ := loads_bind.1 h
  obtain ⟨rfl, rfl⟩ := hf d _ _ _ hb
  exact loads_declaration hd

theorem Declares.counts {kind : DeclKind} {decl : β → Declaration} {m : Load β}
    (h : Declares kind decl m) : Counts (fun b => [(decl b).id]) m := by
  intro n n' b hb
  obtain ⟨rfl, hid, -⟩ := h n n' b hb
  show Between n (n + 1) [(decl b).id]
  rw [hid]
  exact .singleton n

/-! ## Declarations of a file -/

namespace Load

theorem quiet_interfaceField (e : Description.Excerpt) : Quiet (interfaceField e) := by
  refine .bind (quiet_text _ e) fun f => ?_
  split
  · exact .fail _ _
  · exact .pure _

theorem quiet_decoration (d : Description.DecorationDesc) : Quiet (decoration d) := by
  exact .bind (.listMapM (quiet_text _) _) fun args => .pure _

theorem quiet_constructor (name : Description.Excerpt) (d : Description.ConstructorDesc) :
    Quiet (constructor name d) := by
  exact .bind (.listMapM (quiet_text _) _) fun params =>
    .bind (.listMapM (quiet_text _) _) fun body => .pure _

theorem quiet_member (name : Description.Excerpt) (d : Description.MemberDesc) :
    Quiet (member name d) := by
  unfold member
  split
  · split
    · exact .bind (quiet_text _ _) fun f => .pure _
    · exact .fail _ _
  · exact .bind (quiet_text _ _) fun head =>
      .bind (.listMapM (quiet_text _) _) fun body => .pure _
  · exact .fail _ _

theorem decorator_declares (file : String) (d : Description.DecoratorDesc) :
    Declares .decorator DecoratorDecl.decl (decorator file d) := Finishes.declares fun _ => .pure

theorem interface_declares (file : String) (d : Description.InterfaceDesc) :
    Declares .interfaceDecl InterfaceDecl.decl (interface file d) :=
  Finishes.declares fun _ =>
    .bind (.listMapM (quiet_text _) _) fun _ =>
    .bind (.listMapM (quiet_text _) _) fun _ =>
    .bind (.listMapM quiet_interfaceField _) fun _ =>
    .bind (.listMapM (quiet_text _) _) fun _ => .pure

theorem typeAlias_declares (file : String) (d : Description.AliasDesc) :
    Declares .aliasDecl AliasDecl.decl (typeAlias file d) := by
  refine Finishes.declares fun _ => .bind (.listMapM (quiet_text _) _) fun _ => ?_
  split
  · exact .bind (.fail _ _) fun _ => .bind (quiet_text _ _) fun _ => .pure
  · exact .bind (quiet_text _ _) fun _ => .pure

theorem class_declares (file : String) (d : Description.ClassDesc) :
    Declares .classDecl ClassDecl.decl (class_ file d) :=
  Finishes.declares fun _ =>
    .bind (.listMapM (quiet_text _) _) fun _ =>
    .bind (.optionMapM (quiet_text _) _) fun _ =>
    .bind (.listMapM (quiet_text _) _) fun _ =>
    .bind (.listMapM quiet_decoration _) fun _ =>
    .bind (.optionMapM (quiet_constructor _) _) fun _ =>
    .bind (.listMapM (quiet_member _) _) fun _ => .pure

end Load

/-- The numbers of the declarations of a file. -/
def SourceFile.numbers (f : SourceFile) : List Nat := f.declarations.map (·.id)

/-- Decorators are counted first and classes last; in the list of declarations they stand the other
way round. -/
theorem Load.file_counts (d : Description.FileDesc) : Counts numbers (file d) := by
  intro n n' f h
  obtain ⟨decorators, n₁, h₁, h⟩ := loads_bind.1 h
  obtain ⟨interfaces, n₂, h₂, h⟩ := loads_bind.1 h
  obtain ⟨aliases, n₃, h₃, h⟩ := loads_bind.1 h
  obtain ⟨classes, n₄, h₄, h⟩ := loads_bind.1 h
  obtain ⟨rfl, rfl⟩ := loads_pure.1 h
  have hd := Counts.listMapM (fun e => (decorator_declares d.path e).counts) _ _ _ _ h₁
  have hi := Counts.listMapM (fun e => (interface_declares d.path e).counts) _ _ _ _ h₂
  have ha := Counts.listMapM (fun e => (typeAlias_declares d.path e).counts) _ _ _ _ h₃
  have hc := Counts.listMapM (fun e => (class_declares d.path e).counts) _ _ _ _ h₄
  simp only [← map_eq_flatMap] at hd hi ha hc
  refine ((hd.append hi).append (ha.append hc)).perm ?_
  simp only [numbers, declarations, map_append, map_map, Function.comp_def]
  generalize decorators.map (fun a => a.decl.id) = ds
  generalize interfaces.map (fun a => a.decl.id) = is
  generalize aliases.map (fun a => a.decl.id) = as
  generalize classes.map (fun a => a.decl.id) = cs
  calc ds ++ is ++ (as ++ cs)
      _ ~ as ++ cs ++ (ds ++ is) := perm_append_comm
      _ ~ cs ++ as ++ (is ++ ds) := perm_append_comm.append perm_append_comm
      _ ~ cs ++ is ++ as ++ ds := by
          simp only [append_assoc]
          refine Perm.append_left cs ?_
          rw [← append_assoc, ← append_assoc]
          exact perm_append_comm.append_right ds

/-! ## Programs -/

/-- No two declarations of the program have the same number. -/
def Program.Numbered (p : Program) : Prop := (p.files.flatMap numbers).Nodup

theorem Load.files_counts (reader : Yaml.Reader) (s : String) :
    Counts (fun fs : List SourceFile => fs.flatMap numbers) (files reader s) := by
  intro n n' fs h
  unfold files at h
  split at h
  · exact absurd h not_loads_fail
  · exact Counts.listMapM file_counts _ _ _ _ h

theorem SourceFile.numbers_asPrelude (path : String) (f : SourceFile) :
    (f.asPrelude path).numbers = f.numbers := by
  simp [numbers, declarations, asPrelude, Function.comp_def]

theorem readPrelude_counts {reader : Yaml.Reader} {path : String} {f : SourceFile} {next : Nat}
    (h : readPrelude reader path text = .ok (f, next)) : Between 0 next f.numbers := by
  unfold readPrelude at h
  split at h
  · next hrun =>
      cases h
      have hfs := Load.files_counts reader text _ _ _ hrun
      rw [numbers_asPrelude]
      simpa using hfs
  · cases h
  · cases h

/-- A loaded program consists of the file of the runtime and those of the description. -/
theorem loadWith_files {reader : Yaml.Reader} {runtime module name : String}
    (h : loadWith reader runtime module name text = .ok p) :
    ∃ f fs next n, readPrelude reader (runtimePath module) runtime = .ok (f, next) ∧
      Loads (Load.files reader text) next fs n ∧ p = ⟨f :: fs⟩ := by
  unfold loadWith at h
  cases hpre : readPrelude reader (runtimePath module) runtime with
  | error e =>
    rw [hpre] at h
    cases h
  | ok q =>
    obtain ⟨f, next⟩ := q
    rw [hpre] at h
    dsimp only [bind, Except.bind] at h
    cases hrun : (Load.files reader text).run next with
    | error e =>
      rw [hrun] at h
      cases h
    | ok q =>
      obtain ⟨fs, n⟩ := q
      rw [hrun] at h
      cases h
      exact ⟨f, fs, next, n, rfl, hrun, rfl⟩

/-- The runtime's declarations are counted from zero, those of the description after them. -/
theorem loadWith_numbered {reader : Yaml.Reader} {runtime module name : String}
    (h : loadWith reader runtime module name text = .ok p) : p.Numbered := by
  obtain ⟨f, fs, next, n, hpre, hrun, rfl⟩ := loadWith_files h
  exact ((readPrelude_counts hpre).append (Load.files_counts reader text _ _ _ hrun)).nodup

theorem SourceFile.classNumbers_sublist (f : SourceFile) :
    (f.classes.map fun c => c.decl.id) <+ f.numbers := by
  unfold numbers declarations
  simp only [map_append, map_map, append_assoc]
  exact sublist_append_left _ _

/-- No two classes that are processed have the same number. -/
theorem Program.Numbered.ownClasses (h : p.Numbered) :
    (p.ownClasses.map fun fc => fc.2.decl.id).Nodup := by
  refine h.sublist ?_
  unfold Program.ownClasses
  induction p.files with
  | nil => simp
  | cons f fs ih =>
    rw [flatMap_cons]
    cases hamb : f.ambient with
    | true =>
      rw [filter_cons_of_neg (by simp [hamb])]
      exact ih.trans (sublist_append_right _ _)
    | false =>
      rw [filter_cons_of_pos (by simp [hamb]), flatMap_cons, map_append, map_map]
      exact f.classNumbers_sublist.append ih

end Componentry
