import Componentry.Text.Quoted
import Mathlib.Algebra.Group.Nat.Defs

/-!
# Quoted texts tell what was quoted

A character stands between quotes as itself, as a backslash with a letter, or by its number
(`quoteChar_cases`). These forms tell it from all others, and where it ends; so the quoted form
determines the text (`quote_injective`).
-/

namespace Componentry.Text

open List

variable {c d e : Char} {w m n : Nat}

theorem hexDigit_mod (n : Nat) : hexDigit n = hexDigit (n % 16) := by simp [hexDigit]

/-- The digits that escapes by number are written with. -/
theorem hexDigit_mem (n : Nat) : hexDigit n ∈ "0123456789abcdef".toList := by
  have h : ∀ k < 16, hexDigit k ∈ "0123456789abcdef".toList := by decide +kernel
  rw [hexDigit_mod]
  exact h _ (Nat.mod_lt _ (by decide))

theorem hex_mem (h : d ∈ hex w n) : d ∈ "0123456789abcdef".toList := by
  induction w generalizing n with
  | zero => cases h
  | succ w ih =>
    rw [hex, mem_append, mem_singleton] at h
    rcases h with h | rfl
    · exact ih h
    · exact hexDigit_mem n

theorem length_hex (w n : Nat) : (hex w n).length = w := by
  induction w generalizing n with
  | zero => rfl
  | succ w ih => rw [hex, length_append, ih, length_singleton]

theorem hex_inj (hm : m < 16 ^ w) (hn : n < 16 ^ w) (h : hex w m = hex w n) : m = n := by
  induction w generalizing m n with
  | zero => omega
  | succ w ih =>
    have hdigit : ∀ j < 16, ∀ k < 16, hexDigit j = hexDigit k → j = k := by decide +kernel
    obtain ⟨hrest, hlast⟩ := append_inj' h rfl
    rw [hexDigit_mod m, hexDigit_mod n, singleton_inj] at hlast
    have := ih (by omega) (by omega) hrest
    have := hdigit _ (Nat.mod_lt _ (by decide)) _ (Nat.mod_lt _ (by decide)) hlast
    omega

/-- The letters that stand for a character after a backslash. -/
def letters : List (Char × Char) :=
  [('"', '"'), ('\\', '\\'), ('a', '\x07'), ('b', '\x08'), ('t', '\t'), ('n', '\n'),
   ('v', '\x0b'), ('f', '\x0c'), ('r', '\r')]

/-- The letters that come before digits, and how many these are. -/
def widths : List (Char × Nat) := [('x', 2), ('u', 4), ('U', 8)]

/-- The ways in which a character is written between quotes. -/
theorem quoteChar_cases (c : Char) :
    (quoteChar c = [c] ∧ isPrintable c = true ∧ c ≠ '"' ∧ c ≠ '\\') ∨
    (∃ e, quoteChar c = ['\\', e] ∧ (e, c) ∈ letters) ∨
    ∃ e w, quoteChar c = '\\' :: e :: hex w c.toNat ∧ (e, w) ∈ widths ∧ c.toNat < 16 ^ w ∧
      ¬(isPrintable c || c = '\t' || c = '\n' || c = '\r') = true := by
  have hof : ∀ {n}, c.toNat = n → c = Char.ofNat n := fun h => by rw [← h, Char.ofNat_toNat]
  unfold quoteChar
  split
  · next h => exact .inr (.inl ⟨_, rfl, by rw [h]; decide⟩)
  split
  · next h => exact .inr (.inl ⟨_, rfl, by rw [h]; decide⟩)
  split
  · exact .inl ⟨rfl, ‹_›, ‹_›, ‹_›⟩
  split
  case h_8 =>
    have hrest : ¬(isPrintable c || c = '\t' || c = '\n' || c = '\r') = true := by
      simp only [Bool.or_eq_true, decide_eq_true_eq, not_or]
      exact ⟨⟨⟨‹_›, by rintro rfl; simp_all⟩, by rintro rfl; simp_all⟩, by rintro rfl; simp_all⟩
    split
    · exact .inr (.inr ⟨_, 2, rfl, by decide, by omega, hrest⟩)
    split
    · exact .inr (.inr ⟨_, 4, rfl, by decide, by omega, hrest⟩)
    · exact .inr (.inr ⟨_, 8, rfl, by decide, c.val.toNat_lt, hrest⟩)
  all_goals exact .inr (.inl ⟨_, rfl, hof ‹_› ▸ by decide⟩)

theorem isPrintable_quoteChar (hd : d ∈ quoteChar c) : isPrintable d = true := by
  have hdigits : ∀ d ∈ "0123456789abcdef".toList, isPrintable d = true := all_eq_true.1 (by decide)
  have hletters : ∀ p ∈ letters, isPrintable p.1 = true := by decide
  have hwidths : ∀ p ∈ widths, isPrintable p.1 = true := by decide
  obtain ⟨hc, hprint, -⟩ | ⟨e, hc, he⟩ | ⟨e, w, hc, he, -⟩ := quoteChar_cases c
  · rw [hc] at hd
    rwa [mem_singleton.1 hd]
  · rw [hc] at hd
    obtain rfl | hd := mem_cons.1 hd
    · decide
    · exact mem_singleton.1 hd ▸ hletters _ he
  · rw [hc] at hd
    obtain rfl | hd := mem_cons.1 hd
    · decide
    · obtain rfl | hd := mem_cons.1 hd
      · exact hwidths _ he
      · exact hdigits d (hex_mem hd)

/-- Where a character ends can be told from the way it is written, and which it is. -/
theorem quoteChar_cancel {xs ys : List Char} (h : quoteChar c ++ xs = quoteChar d ++ ys) :
    c = d ∧ xs = ys := by
  have hletters : ∀ p ∈ letters, ∀ q ∈ letters, p.1 = q.1 → p.2 = q.2 := by decide
  have hwidths : ∀ p ∈ widths, ∀ q ∈ widths, p.1 = q.1 → p.2 = q.2 := by decide
  have hapart : ∀ p ∈ letters, ∀ q ∈ widths, p.1 ≠ q.1 := by decide
  obtain ⟨hc, -, -, hcs⟩ | ⟨e, hc, he⟩ | ⟨e, w, hc, he, hlt, -⟩ := quoteChar_cases c <;>
    obtain ⟨hd, -, -, hds⟩ | ⟨f, hd, hf⟩ | ⟨f, v, hd, hf, hlt', -⟩ := quoteChar_cases d <;>
    rw [hc, hd] at h <;> simp only [cons_append, nil_append, List.cons.injEq, true_and] at h
  · exact h
  · exact absurd h.1 hcs
  · exact absurd h.1 hcs
  · exact absurd h.1.symm hds
  · exact ⟨hletters _ he _ hf h.1, h.2⟩
  · exact absurd h.1 (hapart _ he _ hf)
  · exact absurd h.1.symm hds
  · exact absurd h.1.symm (hapart _ hf _ he)
  · obtain rfl : w = v := hwidths _ he _ hf h.1
    obtain ⟨hhex, hys⟩ := append_inj h.2 (by rw [length_hex, length_hex])
    exact ⟨Char.toNat_inj.1 (hex_inj hlt hlt' hhex), hys⟩

theorem flatMap_quoteChar_inj {cs ds : List Char}
    (h : cs.flatMap quoteChar = ds.flatMap quoteChar) : cs = ds := by
  have hne : ∀ c, quoteChar c ≠ [] := fun c => by
    obtain h | ⟨e, h, -⟩ | ⟨e, w, h, -⟩ := quoteChar_cases c <;> simp [h]
  induction cs generalizing ds with
  | nil => cases ds <;> simp_all
  | cons c cs ih =>
    cases ds with
    | nil => simp_all
    | cons d ds =>
      obtain ⟨rfl, hrest⟩ := quoteChar_cancel h
      rw [ih hrest]

/-- The quoted form determines the text. -/
theorem quote_injective : Function.Injective quote := by
  intro s t h
  have hlist := congrArg String.toList h
  simp only [quote, String.toList_ofList, cons_append, List.cons.injEq, true_and,
    append_cancel_right_eq] at hlist
  exact String.toList_inj.1 (flatMap_quoteChar_inj hlist)

end Componentry.Text
