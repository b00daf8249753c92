import Componentry.Proofs.Types.Sharing

/-!
# Kinds of declarations

A declaration says of what kind it is. In a loaded program it stands among the declarations of that
kind (`loadWith_kinded`), so what it declares is found by its number.
-/

namespace Componentry

open List

variable {f : SourceFile}

/-- The declarations of a file have the kind of the list they stand in. -/
structure SourceFile.Kinded (f : SourceFile) : Prop where
  classes : ∀ c ∈ f.classes, c.decl.kind = .classDecl
  interfaces : ∀ i ∈ f.interfaces, i.decl.kind = .interfaceDecl
  aliases : ∀ a ∈ f.aliases, a.decl.kind = .aliasDecl
  decorators : ∀ d ∈ f.decorators, d.decl.kind = .decorator

/-- The declarations of a program have the kind of the lists they stand in. -/
def Program.Kinded (p : Program) : Prop := ∀ f ∈ p.files, f.Kinded

/-! ## Loading -/

theorem loads_listMapM_mem {α β : Type} {f : α → Load β} : ∀ {xs : List α} {n n' : Nat}
    {bs : List β}, Loads (xs.mapM f) n bs n' → ∀ b ∈ bs, ∃ x k k', Loads (f x) k b k'
  | [], n, n', bs, h, b, hb => by
    rw [mapM_nil] at h
    obtain ⟨rfl, -⟩ := loads_pure.1 h
    cases hb
  | x :: xs, n, n', bs, h, b, hb => by
    rw [mapM_cons] at h
    obtain ⟨c, k, hc, h⟩ := loads_bind.1 h
    obtain ⟨cs, k', hcs, h⟩ := loads_bind.1 h
    obtain ⟨rfl, -⟩ := loads_pure.1 h
    obtain rfl | hb := mem_cons.1 hb
    · exact ⟨x, n, k, hc⟩
    · exact loads_listMapM_mem hcs b hb

namespace Load

theorem file_kinded {d : Description.FileDesc} {n n' : Nat} (h : Loads (file d) n f n') :
    f.Kinded := by
  obtain ⟨decorators, n₁, h₁, h⟩ := loads_bind.1 h
  obtain ⟨interfaces, n₂, h₂, h⟩ := loads_bind.1 h
  obtain ⟨aliases, n₃, h₃, h⟩ := loads_bind.1 h
  obtain ⟨classes, n₄, h₄, h⟩ := loads_bind.1 h
  obtain ⟨rfl, -⟩ := loads_pure.1 h
  refine ⟨fun c hc => ?_, fun i hi => ?_, fun a ha => ?_, fun e he => ?_⟩
  · obtain ⟨desc, k, k', hload⟩ := loads_listMapM_mem h₄ c hc
    exact (class_declares _ _ _ _ _ hload).2.2
  · obtain ⟨desc, k, k', hload⟩ := loads_listMapM_mem h₂ i hi
    exact (interface_declares _ _ _ _ _ hload).2.2
  · obtain ⟨desc, k, k', hload⟩ := loads_listMapM_mem h₃ a ha
    exact (typeAlias_declares _ _ _ _ _ hload).2.2
  · obtain ⟨desc, k, k', hload⟩ := loads_listMapM_mem h₁ e he
    exact (decorator_declares _ _ _ _ _ hload).2.2

theorem files_kinded {reader : Yaml.Reader} {s : String} {n n' : Nat} {fs : List SourceFile}
    (h : Loads (files reader s) n fs n') : ∀ f ∈ fs, f.Kinded := by
  unfold files at h
  split at h
  · exact absurd h not_loads_fail
  · intro f hf
    obtain ⟨desc, k, k', hload⟩ := loads_listMapM_mem h f hf
    exact file_kinded hload

end Load

theorem SourceFile.Kinded.asPrelude (h : f.Kinded) (path : String) : (f.asPrelude path).Kinded := by
  refine ⟨?_, ?_, ?_, ?_⟩
  · exact forall_mem_map.2 h.classes
  · exact forall_mem_map.2 h.interfaces
  · exact forall_mem_map.2 h.aliases
  · exact forall_mem_map.2 h.decorators

theorem readPrelude_kinded {reader : Yaml.Reader} {path text : String} {next : Nat}
    (h : readPrelude reader path text = .ok (f, next)) : f.Kinded := by
  unfold readPrelude at h
  split at h
  · next hrun =>
      cases h
      exact (Load.files_kinded hrun _ mem_cons_self).asPrelude path
  · cases h
  · cases h

theorem loadWith_kinded {reader : Yaml.Reader} {runtime module name text : String} {p : Program}
    (h : loadWith reader runtime module name text = .ok p) : p.Kinded := by
  obtain ⟨f, fs, next, n, hpre, hrun, rfl⟩ := loadWith_files h
  exact forall_mem_cons.2 ⟨readPrelude_kinded hpre, Load.files_kinded hrun⟩

/-! ## Finding what is declared -/

namespace Program

variable {p : Program} {d : Declaration}

/-- What a declaration declares is found among the items of its kind. -/
theorem findSome_of_decl {α : Type} {items : SourceFile → List α} {decl : α → Declaration}
    (hf : f ∈ p.files) {a : α} (ha : a ∈ items f) (hid : (decl a).id = d.id) :
    ∃ b, p.files.findSome? (fun f => (items f).find? fun a => (decl a).id == d.id) = some b := by
  rw [← Option.isSome_iff_exists, findSome?_isSome_iff]
  refine ⟨f, hf, ?_⟩
  rw [find?_isSome]
  exact ⟨a, ha, by simpa using hid⟩

/-- What a declaration of the program declares is there. -/
theorem Kinded.found (hp : p.Kinded) (hd : p.Declared d) :
    (d.kind = .classDecl → ∃ c, p.class? d = some c) ∧
      (d.kind = .interfaceDecl → ∃ i, p.interface? d = some i) ∧
      (d.kind = .aliasDecl → ∃ a, p.alias? d = some a) := by
  obtain ⟨f, hf, hd⟩ := hd
  have hkinds := hp f hf
  unfold SourceFile.declarations at hd
  simp only [mem_append, mem_map] at hd
  obtain ((⟨c, hc, rfl⟩ | ⟨i, hi, rfl⟩) | ⟨a, ha, rfl⟩) | ⟨e, he, rfl⟩ := hd
  · rw [hkinds.classes c hc]
    exact ⟨fun _ => findSome_of_decl hf hc rfl, by simp, by simp⟩
  · rw [hkinds.interfaces i hi]
    exact ⟨by simp, fun _ => findSome_of_decl hf hi rfl, by simp⟩
  · rw [hkinds.aliases a ha]
    exact ⟨by simp, by simp, fun _ => findSome_of_decl hf ha rfl⟩
  · rw [hkinds.decorators e he]
    exact ⟨by simp, by simp, by simp⟩

end Program

end Componentry
