import Mathlib.Data.Rat.Floor
import Mathlib.Tactic.Linarith
import Mathlib.Tactic.Positivity
import Mathlib.Tactic.FieldSimp
import Mathlib.Tactic.Ring
import Mathlib.Algebra.Order.Field.Power
import Componentry.Number.Decimal

/-!
# Rounding to binary64

The operations on fractions are exact, so each is described by the rational number it computes.
`Normal m q` says that `m · 2 ^ q` is written the way rounding writes it: with a full mantissa,
unless the exponent is the least one. `Interval.Holds` says of a rational number that it lies in the
interval of a number; a fraction in the interval of a normal number is rounded to it (`round_eq`).
-/

namespace Componentry.Number

variable {num den m : Nat} {q : Int}

/-! ## Scaling -/

theorem scale_den {base : Nat} (hbase : 0 < base) (hden : den ≠ 0) (e : Int) :
    (scale base num den e).2 ≠ 0 := by
  cases e with
  | ofNat k => exact hden
  | negSucc k => exact Nat.mul_ne_zero hden (Nat.pow_pos hbase).ne'

theorem scaleTwo_den (hden : den ≠ 0) (e : Int) : (scaleTwo num den e).2 ≠ 0 :=
  scale_den Nat.two_pos hden e

theorem scaleTen_den (hden : den ≠ 0) (e : Int) : (scaleTen num den e).2 ≠ 0 :=
  scale_den (by decide) hden e

/-- Scaling multiplies the fraction. -/
theorem scale_value (base num den : Nat) (e : Int) :
    ((scale base num den e).1 : ℚ) / (scale base num den e).2 = num / den * (base : ℚ) ^ e := by
  cases e with
  | ofNat k =>
    show ((num * base ^ k : ℕ) : ℚ) / den = num / den * (base : ℚ) ^ (Int.ofNat k)
    rw [Int.ofNat_eq_natCast, zpow_natCast]
    push_cast
    ring
  | negSucc k =>
    show (num : ℚ) / ((den * base ^ (k + 1) : ℕ) : ℚ) = num / den * (base : ℚ) ^ (Int.negSucc k)
    rw [zpow_negSucc]
    push_cast
    rw [div_mul_eq_div_div, div_eq_mul_inv (_ / _)]

theorem scaleTwo_value (num den : Nat) (e : Int) :
    ((scaleTwo num den e).1 : ℚ) / (scaleTwo num den e).2 = num / den * 2 ^ e :=
  scale_value 2 num den e

theorem scaleTen_value (num den : Nat) (e : Int) :
    ((scaleTen num den e).1 : ℚ) / (scaleTen num den e).2 = num / den * 10 ^ e :=
  scale_value 10 num den e

/-! ## The exponent of the leading binary digit -/

theorem floorLogTwo_spec (hnum : num ≠ 0) (hden : den ≠ 0) :
    (2 : ℚ) ^ floorLogTwo num den ≤ num / den ∧
      (num : ℚ) / den < 2 ^ (floorLogTwo num den + 1) := by
  have hden' : (0 : ℚ) < den := by exact_mod_cast Nat.pos_of_ne_zero hden
  have hn1 : (2 : ℚ) ^ (num.log2 : ℤ) ≤ num := by
    rw [zpow_natCast]
    exact_mod_cast Nat.log2_self_le hnum
  have hn2 : (num : ℚ) < 2 ^ ((num.log2 : ℤ) + 1) := by
    rw [← Nat.cast_succ, zpow_natCast]
    exact_mod_cast Nat.lt_log2_self
  have hd1 : (2 : ℚ) ^ (den.log2 : ℤ) ≤ den := by
    rw [zpow_natCast]
    exact_mod_cast Nat.log2_self_le hden
  have hd2 : (den : ℚ) < 2 ^ ((den.log2 : ℤ) + 1) := by
    rw [← Nat.cast_succ, zpow_natCast]
    exact_mod_cast Nat.lt_log2_self
  obtain ⟨a, ha⟩ : ∃ a : ℤ, a = (num.log2 : ℤ) := ⟨_, rfl⟩
  obtain ⟨b, hb⟩ : ∃ b : ℤ, b = (den.log2 : ℤ) := ⟨_, rfl⟩
  rw [← ha] at hn1 hn2
  rw [← hb] at hd1 hd2
  -- the quotient of the two leading digits is off by one at most
  have hlow : (2 : ℚ) ^ (a - b - 1) ≤ num / den := by
    rw [le_div_iff₀ hden']
    calc (2 : ℚ) ^ (a - b - 1) * den ≤ 2 ^ (a - b - 1) * 2 ^ (b + 1) := by gcongr
      _ = 2 ^ a := by rw [← zpow_add₀ (by norm_num)]; congr 1; ring
      _ ≤ num := hn1
  have hhigh : (num : ℚ) / den < 2 ^ (a - b + 1) := by
    rw [div_lt_iff₀ hden']
    calc (num : ℚ) < 2 ^ (a + 1) := hn2
      _ = 2 ^ (a - b + 1) * 2 ^ b := by rw [← zpow_add₀ (by norm_num)]; congr 1; ring
      _ ≤ 2 ^ (a - b + 1) * den := by gcongr
  have hcompare : ((scaleTwo num den (-(a - b))).1 < (scaleTwo num den (-(a - b))).2) ↔
      (num : ℚ) / den < 2 ^ (a - b) := by
    have hpos : (0 : ℚ) < (scaleTwo num den (-(a - b))).2 := by
      exact_mod_cast Nat.pos_of_ne_zero (scaleTwo_den hden _)
    rw [← @Nat.cast_lt ℚ, ← div_lt_one hpos, scaleTwo_value, zpow_neg, ← div_eq_mul_inv,
      div_lt_one (by positivity)]
  have hdef : floorLogTwo num den =
      if (scaleTwo num den (-(a - b))).1 < (scaleTwo num den (-(a - b))).2 then a - b - 1
      else a - b := by
    rw [ha, hb]
    rfl
  rw [hdef]
  split
  · rename_i h
    rw [sub_add_cancel]
    exact ⟨hlow, hcompare.1 h⟩
  · rename_i h
    exact ⟨not_lt.1 fun hlt => h (hcompare.2 hlt), hhigh⟩

/-! ## Rounding to whole numbers -/

/-- The nearest whole number is found, and the even one of two. -/
theorem roundDiv_eq (hden : den ≠ 0) (hlow : (m : ℚ) - 1 / 2 ≤ num / den)
    (hhigh : (num : ℚ) / den ≤ m + 1 / 2)
    (heven : m % 2 = 1 → (m : ℚ) - 1 / 2 < num / den ∧ (num : ℚ) / den < m + 1 / 2) :
    roundDiv num den = m := by
  have hpos : (0 : ℚ) < den := by exact_mod_cast Nat.pos_of_ne_zero hden
  have hsplit : (num : ℚ) = den * (num / den : ℕ) + (num % den : ℕ) := by
    exact_mod_cast (Nat.div_add_mod num den).symm
  have hr : num % den < den := Nat.mod_lt _ (Nat.pos_of_ne_zero hden)
  have hr' : ((num % den : ℕ) : ℚ) < den := by exact_mod_cast hr
  have hr0 : (0 : ℚ) ≤ ((num % den : ℕ) : ℚ) := Nat.cast_nonneg _
  unfold roundDiv
  generalize num / den = a at *
  generalize num % den = r at *
  have hx : (num : ℚ) / den = a + r / den := by
    rw [hsplit, add_div, mul_div_cancel_left₀ _ hpos.ne']
  have hf0 : (0 : ℚ) ≤ r / den := by positivity
  have hf1 : (r : ℚ) / den < 1 := (div_lt_one hpos).2 hr'
  rw [hx] at hlow hhigh heven
  have hcases : m = a ∨ m = a + 1 := by
    have h1 : (a : ℚ) < m + 1 := by linarith
    have h2 : (m : ℚ) < a + 2 := by linarith
    have h1' : a < m + 1 := by exact_mod_cast h1
    have h2' : m < a + 2 := by exact_mod_cast h2
    omega
  have hhalf : (2 * r < den ↔ (r : ℚ) / den < 1 / 2) ∧ (2 * r > den ↔ (1 : ℚ) / 2 < r / den) := by
    rw [div_lt_iff₀ hpos, lt_div_iff₀ hpos, ← @Nat.cast_lt ℚ, gt_iff_lt, ← @Nat.cast_lt ℚ]
    push_cast
    constructor <;> constructor <;> intro h <;> linarith
  simp only [hhalf.1, hhalf.2]
  rcases hcases with rfl | rfl
  · split
    · rfl
    · split
      · linarith
      · split
        · rfl
        · rename_i h1 h2 h3
          have := (heven (by omega)).2
          linarith
  · push_cast at hlow hhigh heven
    split
    · linarith
    · split
      · rfl
      · split
        · rename_i h1 h2 h3
          have := (heven (by omega)).1
          linarith
        · rfl

/-! ## Normal numbers -/

/-- `m · 2 ^ q` is written the way rounding writes it. -/
structure Normal (m : Nat) (q : Int) : Prop where
  small : m < 2 ^ 53
  least : -1074 ≤ q
  greatest : q ≤ 971
  full : 2 ^ 52 ≤ m ∨ q = -1074

/-- The rational number lies in the interval. -/
def Interval.Holds (i : Interval) (x : ℚ) : Prop :=
  if i.closed then i.low * 2 ^ i.scale ≤ x ∧ x ≤ i.high * 2 ^ i.scale
  else i.low * 2 ^ i.scale < x ∧ x < i.high * 2 ^ i.scale

/-- The rounding of `num / den` with the mantissa at the exponent `q`. -/
theorem round_eq_at (hnum : num ≠ 0) {r : Nat}
    (hq : max (floorLogTwo num den - 52) (-1074) = q)
    (hr : roundDiv (scaleTwo num den (-q)).1 (scaleTwo num den (-q)).2 = r) :
    binary64.round num den = if r = 2 ^ 53 then (if q + 1 > 971 then none else some (2 ^ 52, q + 1))
      else if q > 971 then none else some (r, q) := by
  have hround : binary64.round num den =
      let p : Nat × Int := if r = 2 ^ 53 then (2 ^ 52, q + 1) else (r, q)
      if p.2 > 971 then none else some p := by
    subst hr
    subst hq
    rw [Format.round, if_neg hnum]
    rfl
  rw [hround]
  split <;> rfl

theorem floorLogTwo_lt (hnum : num ≠ 0) (hden : den ≠ 0) {a : Int}
    (h : (num : ℚ) / den < 2 ^ a) : floorLogTwo num den < a :=
  (zpow_lt_zpow_iff_right₀ (by norm_num : (1 : ℚ) < 2)).1
    (lt_of_le_of_lt (floorLogTwo_spec hnum hden).1 h)

theorem le_floorLogTwo (hnum : num ≠ 0) (hden : den ≠ 0) {a : Int}
    (h : (2 : ℚ) ^ a ≤ num / den) : a ≤ floorLogTwo num den :=
  Int.lt_add_one_iff.1 ((zpow_lt_zpow_iff_right₀ (by norm_num : (1 : ℚ) < 2)).1
    (lt_of_le_of_lt h (floorLogTwo_spec hnum hden).2))

/-- How far the interval of a number reaches below it, in quarters of its last digit. -/
def quarters (m : Nat) (q : Int) : Nat := if m = 2 ^ 52 ∧ -1074 < q then 1 else 2

theorem quarters_le (m : Nat) (q : Int) : quarters m q ≤ 2 := by
  unfold quarters
  split <;> decide

theorem Interval.of_eq (m : Nat) (q : Int) :
    Interval.of m q = ⟨4 * m - quarters m q, 4 * m + 2, q - 2, m % 2 == 0⟩ := by
  have hbelow : (if (m = Nat.pow 2 (binary64.precision - 1) && q > binary64.minExponent) = true
      then 1 else 2) = quarters m q := by
    refine if_congr ?_ rfl rfl
    rw [Bool.and_eq_true, decide_eq_true_iff, decide_eq_true_iff]
    rfl
  unfold Interval.of
  simp only [hbelow]

/-- The interval of a number, in units of its last digit. -/
theorem Interval.holds_of (hm : m ≠ 0) {x : ℚ} (h : (Interval.of m q).Holds x) :
    (m : ℚ) - quarters m q / 4 ≤ x * 2 ^ (-q) ∧ x * 2 ^ (-q) ≤ m + 1 / 2 ∧
      (m % 2 = 1 → (m : ℚ) - quarters m q / 4 < x * 2 ^ (-q) ∧ x * 2 ^ (-q) < m + 1 / 2) := by
  have hq : (0 : ℚ) < 2 ^ q := by positivity
  have hscale : (2 : ℚ) ^ (q - 2) = 2 ^ q / 4 := by
    rw [zpow_sub₀ (by norm_num)]
    norm_num
  have hlow : ((4 * m - quarters m q : ℕ) : ℚ) = 4 * m - quarters m q := by
    have := quarters_le m q
    rw [Nat.cast_sub (by omega)]
    push_cast
    ring
  have hx : x * 2 ^ (-q) * 2 ^ q = x := by
    rw [mul_assoc, ← zpow_add₀ (by norm_num), neg_add_cancel, zpow_zero, mul_one]
  generalize x * 2 ^ (-q) = y at hx ⊢
  subst hx
  rw [Interval.of_eq, Interval.Holds] at h
  simp only [hscale, hlow] at h
  push_cast at h
  have hle : ∀ a b : ℚ, a * (2 ^ q / 4) ≤ b * 2 ^ q ↔ a / 4 ≤ b := by
    intro a b
    rw [show a * (2 ^ q / 4) = a / 4 * 2 ^ q by ring, mul_le_mul_iff_left₀ hq]
  have hge : ∀ a b : ℚ, b * 2 ^ q ≤ a * (2 ^ q / 4) ↔ b ≤ a / 4 := by
    intro a b
    rw [show a * (2 ^ q / 4) = a / 4 * 2 ^ q by ring, mul_le_mul_iff_left₀ hq]
  split at h
  · rename_i heven
    rw [hle, hge] at h
    refine ⟨by linarith [h.1], by linarith [h.2], fun hodd => ?_⟩
    rw [beq_iff_eq] at heven
    omega
  · rw [← not_le, ← not_le, hle, hge, not_le, not_le] at h
    exact ⟨by linarith [h.1], by linarith [h.2], fun _ => ⟨by linarith [h.1], by linarith [h.2]⟩⟩

/-- A fraction in the interval of a normal number is rounded to it. -/
theorem round_eq (hden : den ≠ 0) (h : Normal m q) (hm : m ≠ 0)
    (hx : (Interval.of m q).Holds (num / den)) : binary64.round num den = some (m, q) := by
  obtain ⟨hlow, hhigh, hodd⟩ := Interval.holds_of hm hx
  have hvalue := scaleTwo_value num den (-q)
  have hvalue' : (num : ℚ) / den * 2 ^ (-(q - 1)) = num / den * 2 ^ (-q) * 2 := by
    rw [mul_assoc, ← zpow_add_one₀ (by norm_num)]
    congr 2
    ring
  have hy : (num : ℚ) / den = num / den * 2 ^ (-q) * 2 ^ q := by
    rw [mul_assoc, ← zpow_add₀ (by norm_num), neg_add_cancel, zpow_zero, mul_one]
  generalize (num : ℚ) / den * 2 ^ (-q) = y at hlow hhigh hodd hvalue hvalue' hy
  have hq : (0 : ℚ) < 2 ^ q := by positivity
  have hquarters : (quarters m q : ℚ) ≤ 2 := by exact_mod_cast quarters_le m q
  have hm1 : (1 : ℚ) ≤ m := by exact_mod_cast Nat.one_le_iff_ne_zero.2 hm
  have hsmall : (m : ℚ) + 1 ≤ 2 ^ 53 := by exact_mod_cast h.small
  have hleast := h.least
  have hnum : num ≠ 0 := by
    rintro rfl
    rw [Nat.cast_zero, zero_div, eq_comm, mul_eq_zero, or_iff_left hq.ne'] at hy
    linarith
  have hlt : (num : ℚ) / den < 2 ^ (53 + q) := by
    rw [hy, zpow_add₀ (by norm_num)]
    refine mul_lt_mul_of_pos_right ?_ hq
    rw [show (2 : ℚ) ^ (53 : ℤ) = 2 ^ 53 by norm_num]
    linarith
  have hupper := floorLogTwo_lt hnum hden hlt
  by_cases hcase : (2 : ℚ) ^ 52 ≤ y ∨ q = -1074
  · have hexponent : max (floorLogTwo num den - 52) (-1074) = q := by
      rcases hcase with hfull | hleast
      · have hle : (2 : ℚ) ^ (52 + q) ≤ num / den := by
          rw [hy, zpow_add₀ (by norm_num)]
          exact mul_le_mul_of_nonneg_right (by norm_num at hfull ⊢; exact hfull) hq.le
        have := le_floorLogTwo hnum hden hle
        omega
      · omega
    rw [round_eq_at hnum hexponent (roundDiv_eq (m := m) (scaleTwo_den hden _) ?_ ?_ ?_)]
    · rw [if_neg (Nat.ne_of_lt h.small), if_neg (not_lt.2 h.greatest)]
    · rw [hvalue]
      linarith
    · rw [hvalue]
      linarith
    · intro hm2
      rw [hvalue]
      exact ⟨by linarith [(hodd hm2).1], (hodd hm2).2⟩
  · -- below a power of two the fraction is rounded up from the next smaller exponent
    rw [not_or, not_le] at hcase
    obtain ⟨hbelow, hq'⟩ := hcase
    have hfull : 2 ^ 52 ≤ m := h.full.resolve_right hq'
    have hm52 : m = 2 ^ 52 := by
      by_contra hne
      have hnext : (2 : ℚ) ^ 52 + 1 ≤ m := by
        exact_mod_cast Nat.succ_le_of_lt (Nat.lt_of_le_of_ne hfull (Ne.symm hne))
      linarith
    have hone : quarters m q = 1 := if_pos ⟨hm52, by omega⟩
    rw [hone, hm52] at hlow
    push_cast at hlow
    have hexponent : max (floorLogTwo num den - 52) (-1074) = q - 1 := by
      have hge : (2 : ℚ) ^ (51 + q) ≤ num / den := by
        rw [hy, zpow_add₀ (by norm_num)]
        refine mul_le_mul_of_nonneg_right ?_ hq.le
        rw [show (2 : ℚ) ^ (51 : ℤ) = 2 ^ 51 by norm_num]
        linarith
      have hlt : (num : ℚ) / den < 2 ^ (52 + q) := by
        rw [hy, zpow_add₀ (by norm_num)]
        refine mul_lt_mul_of_pos_right ?_ hq
        rw [show (2 : ℚ) ^ (52 : ℤ) = 2 ^ 52 by norm_num]
        exact hbelow
      have := le_floorLogTwo hnum hden hge
      have := floorLogTwo_lt hnum hden hlt
      omega
    have hround : roundDiv (scaleTwo num den (-(q - 1))).1 (scaleTwo num den (-(q - 1))).2 =
        2 ^ 53 := by
      refine roundDiv_eq (scaleTwo_den hden _) ?_ ?_ (fun hodd => by omega)
      all_goals
        rw [scaleTwo_value, hvalue']
        push_cast
        linarith
    rw [round_eq_at hnum hexponent hround, if_pos rfl, sub_add_cancel,
      if_neg (not_lt.2 h.greatest), hm52]

theorem roundDiv_bounds (num den : Nat) :
    num / den ≤ roundDiv num den ∧ roundDiv num den ≤ num / den + 1 := by
  unfold roundDiv
  dsimp only
  split
  · omega
  · split
    · omega
    · split <;> omega

/-- What is rounded is normal. -/
theorem normal_of_round (hden : den ≠ 0) (h : binary64.round num den = some (m, q)) :
    Normal m q := by
  by_cases hnum : num = 0
  · subst hnum
    cases h
    exact ⟨by decide, by decide, by decide, Or.inr rfl⟩
  · obtain ⟨hge, hlt⟩ := floorLogTwo_spec hnum hden
    rw [round_eq_at hnum rfl rfl] at h
    obtain ⟨e, he⟩ : ∃ e, max (floorLogTwo num den - 52) (-1074) = e := ⟨_, rfl⟩
    rw [he] at h
    have hpos : (0 : ℚ) < (scaleTwo num den (-e)).2 := by
      exact_mod_cast Nat.pos_of_ne_zero (scaleTwo_den hden _)
    have hvalue := scaleTwo_value num den (-e)
    have hbounds := roundDiv_bounds (scaleTwo num den (-e)).1 (scaleTwo num den (-e)).2
    have hupper : (scaleTwo num den (-e)).1 / (scaleTwo num den (-e)).2 < 2 ^ 53 := by
      rw [Nat.div_lt_iff_lt_mul (by exact_mod_cast hpos), ← @Nat.cast_lt ℚ, Nat.cast_mul,
        ← div_lt_iff₀ hpos, hvalue]
      calc (num : ℚ) / den * 2 ^ (-e) < 2 ^ (floorLogTwo num den + 1) * 2 ^ (-e) := by gcongr
        _ = 2 ^ (floorLogTwo num den + 1 - e) := by
          rw [← zpow_add₀ (by norm_num), sub_eq_add_neg]
        _ ≤ 2 ^ (53 : ℤ) := zpow_le_zpow_right₀ (by norm_num) (by omega)
        _ = ((2 ^ 53 : ℕ) : ℚ) := by norm_num
    have hlower : -1074 < e → 2 ^ 52 ≤ (scaleTwo num den (-e)).1 / (scaleTwo num den (-e)).2 := by
      intro hleast
      rw [Nat.le_div_iff_mul_le (by exact_mod_cast hpos), ← @Nat.cast_le ℚ, Nat.cast_mul,
        ← le_div_iff₀ hpos, hvalue]
      calc ((2 ^ 52 : ℕ) : ℚ) = 2 ^ (52 : ℤ) := by norm_num
        _ = 2 ^ (floorLogTwo num den) * 2 ^ (-e) := by
          rw [← zpow_add₀ (by norm_num)]
          congr 1
          omega
        _ ≤ num / den * 2 ^ (-e) := by gcongr
    have hleast : -1074 ≤ e := by omega
    split at h
    · split at h
      · cases h
      · cases h
        exact ⟨by decide, by omega, by omega, Or.inl (Nat.le_refl _)⟩
    · split at h
      · cases h
      · rename_i hcarry hgreatest
        cases h
        refine ⟨by omega, hleast, not_lt.1 hgreatest, ?_⟩
        rcases Int.lt_or_eq_of_le hleast with hlt | heq
        · exact Or.inl (Nat.le_trans (hlower hlt) hbounds.1)
        · exact Or.inr heq.symm

end Componentry.Number
