import Mathlib.Data.Nat.Cast.Order.Field
import Componentry.Proofs.Number.Rounding

/-!
# The shortest decimal reads back

`Decimal.value` is the rational number that a decimal stands for, and reading a decimal depends on
nothing else (`toBinary64?_eq`). The decimal that `shortest` finds lies in the interval of the
number it was found for (`shortest_holds`): each candidate it takes does, and among seventeen digits
there is one, since `2 ^ 53 < 10 ^ 16`.
-/

namespace Componentry.Number

variable {a : Nat} {unit s : Int}

variable {num den m : Nat} {q : Int}

/-- The number that a decimal stands for. -/
def Decimal.value (d : Decimal) : ℚ := d.digits * 10 ^ d.exponent

/-! ## Comparisons -/

theorem pow_toNat {c : ℚ} (hc : c ≠ 0) (s : Int) : c ^ s.toNat = c ^ s * c ^ (-s).toNat := by
  rw [← zpow_natCast, ← zpow_natCast, ← zpow_add₀ hc]
  congr 1
  omega

/-- Both sides of a comparison are multiplied by the same power of ten and of two. -/
theorem decimal_scaled (a : Nat) (s t : Int) :
    ((a * Nat.pow 10 s.toNat * Nat.pow 2 (-t).toNat : ℕ) : ℚ) =
      a * 10 ^ s * (10 ^ (-s).toNat * 2 ^ (-t).toNat) := by
  simp only [Nat.pow_eq]
  push_cast
  rw [pow_toNat (by norm_num : (10 : ℚ) ≠ 0) s]
  ring

theorem binary_scaled (b : Nat) (s t : Int) :
    ((b * Nat.pow 2 t.toNat * Nat.pow 10 (-s).toNat : ℕ) : ℚ) =
      b * 2 ^ t * (10 ^ (-s).toNat * 2 ^ (-t).toNat) := by
  simp only [Nat.pow_eq]
  push_cast
  rw [pow_toNat (by norm_num : (2 : ℚ) ≠ 0) t]
  ring

theorem decimalLe_iff {b : Nat} {t : Int} :
    decimalLe a s b t = true ↔ (a : ℚ) * 10 ^ s ≤ b * 2 ^ t := by
  rw [decimalLe, decide_eq_true_iff, ← @Nat.cast_le ℚ, decimal_scaled, binary_scaled,
    mul_le_mul_iff_left₀ (by positivity)]

theorem binaryLe_iff {b : Nat} {t : Int} :
    binaryLe b t a s = true ↔ (b : ℚ) * 2 ^ t ≤ a * 10 ^ s := by
  rw [binaryLe, decide_eq_true_iff, ← @Nat.cast_le ℚ, decimal_scaled, binary_scaled,
    mul_le_mul_iff_left₀ (by positivity)]

theorem Interval.has_iff {i : Interval} : i.has a s = true ↔ i.Holds (a * 10 ^ s) := by
  unfold Interval.has Interval.Holds
  split
  · rw [Bool.and_eq_true, binaryLe_iff, decimalLe_iff]
  · rw [Bool.and_eq_true, Bool.not_eq_true', Bool.not_eq_true', ← Bool.not_eq_true,
      ← Bool.not_eq_true, binaryLe_iff, decimalLe_iff, not_le, not_le]

theorem Interval.holds_of_lt {i : Interval} {x : ℚ} (hlow : i.low * 2 ^ i.scale < x)
    (hhigh : x < i.high * 2 ^ i.scale) : i.Holds x := by
  unfold Interval.Holds
  split
  · exact ⟨hlow.le, hhigh.le⟩
  · exact ⟨hlow, hhigh⟩

/-! ## Candidates -/

/-- What is picked lies in the interval. -/
theorem holds_of_pick {i : Interval} (h : pick i unit num den = some a) :
    i.Holds (a * 10 ^ unit) := by
  rw [← Interval.has_iff]
  unfold pick at h
  dsimp only at h
  split at h
  · rename_i h1 h2
    split at h
    · cases h
      exact h1
    · split at h
      · cases h
        exact h2
      · split at h
        · cases h
          exact h1
        · cases h
          exact h2
  · rename_i h1 _
    cases h
    exact h1
  · rename_i _ h2
    cases h
    exact h2
  · cases h

/-- One of the two candidates of a grid is picked if it lies in the interval. -/
theorem pick_isSome {i : Interval}
    (ha : (scaleTen num den (-unit)).1 / (scaleTen num den (-unit)).2 = a)
    (h : i.Holds (a * 10 ^ unit) ∨ i.Holds ((a + 1 : ℕ) * 10 ^ unit)) :
    (pick i unit num den).isSome = true := by
  rw [← Interval.has_iff, ← Interval.has_iff] at h
  unfold pick
  dsimp only
  rw [ha]
  split
  · split
    · rfl
    · split
      · rfl
      · split <;> rfl
  · rfl
  · rfl
  · rename_i h1 h2
    rw [h1, h2] at h
    simp at h

/-- The search ends in the interval if a grid it looks at has a candidate. -/
theorem search_holds {i : Interval} {fuel : Nat}
    (h : ∃ j : Nat, j < fuel ∧ (pick i (unit - j) num den).isSome = true) :
    i.Holds (search i num den fuel unit).value := by
  induction fuel generalizing unit with
  | zero =>
    obtain ⟨j, hj, -⟩ := h
    cases hj
  | succ fuel ih =>
    rw [search]
    cases hpick : pick i unit num den with
    | some a => exact holds_of_pick hpick
    | none =>
      refine ih ?_
      obtain ⟨j, hj, hsome⟩ := h
      cases j with
      | zero =>
        rw [Nat.cast_zero, sub_zero, hpick] at hsome
        cases hsome
      | succ j =>
        refine ⟨j, Nat.lt_of_succ_lt_succ hj, ?_⟩
        rw [show unit - 1 - (j : ℤ) = unit - ((j + 1 : ℕ) : ℤ) by push_cast; ring]
        exact hsome

/-- The exponent that is found is not too large if the last one that is tried is not. -/
theorem leadingExponent_le (hden : den ≠ 0) {fuel : Nat} {x : Int}
    (h : (10 : ℚ) ^ (x - fuel) ≤ num / den) :
    (10 : ℚ) ^ leadingExponent num den fuel x ≤ num / den := by
  induction fuel generalizing x with
  | zero =>
    rw [Nat.cast_zero, sub_zero] at h
    exact h
  | succ fuel ih =>
    have hpos : (0 : ℚ) < (scaleTen num den (-x)).2 := by
      exact_mod_cast Nat.pos_of_ne_zero (scaleTen_den hden _)
    rw [leadingExponent]
    dsimp only
    split
    · rename_i hle
      rw [← @Nat.cast_le ℚ, ← one_le_div hpos, scaleTen_value, zpow_neg, ← div_eq_mul_inv,
        one_le_div (by positivity)] at hle
      exact hle
    · refine ih ?_
      rw [show x - 1 - (fuel : ℤ) = x - ((fuel + 1 : ℕ) : ℤ) by push_cast; ring]
      exact h

/-- The first estimate of the decimal exponent, at every binary exponent. -/
theorem estimate_le {l : Int} (hlow : -1074 ≤ l) (hhigh : l ≤ 1023) :
    (10 : ℚ) ^ ((l * 30103).fdiv 100000 + 2 - 4) ≤ 2 ^ l := by
  have htable : (List.range 2098).all (fun n =>
      decimalLe 1 ((((n : Int) - 1074) * 30103).fdiv 100000 + 2 - 4) 1 ((n : Int) - 1074)) =
        true := by
    decide +kernel
  rw [List.all_eq_true] at htable
  have h := htable (l + 1074).toNat (List.mem_range.2 (by omega))
  rw [decimalLe_iff, Int.toNat_of_nonneg (by omega), Nat.cast_one, one_mul, one_mul,
    add_sub_cancel_right] at h
  exact h

/-- Among seventeen digits there is a candidate: the grid is finer than the interval is wide. -/
theorem seventeen_digits (hden : den ≠ 0) (h : Normal m q) (hm : m ≠ 0)
    (hvalue : (num : ℚ) / den = m * 2 ^ q) (hunit : (10 : ℚ) ^ (unit + 16) ≤ num / den) :
    (pick (Interval.of m q) unit num den).isSome = true := by
  refine pick_isSome rfl ?_
  have hpos : (0 : ℚ) < (scaleTen num den (-unit)).2 := by
    exact_mod_cast Nat.pos_of_ne_zero (scaleTen_den hden _)
  have hu : (0 : ℚ) < 10 ^ unit := by positivity
  have hw : (0 : ℚ) < 2 ^ q := by positivity
  obtain ⟨a, ha⟩ : ∃ a, (scaleTen num den (-unit)).1 / (scaleTen num den (-unit)).2 = a := ⟨_, rfl⟩
  rw [ha]
  -- the number lies between the two candidates
  have hscaled := scaleTen_value num den (-unit)
  have hbelow : (a : ℚ) * 10 ^ unit ≤ m * 2 ^ q := by
    have : (a : ℚ) ≤ num / den * 10 ^ (-unit) := by
      rw [← hscaled, ← ha]
      exact Nat.cast_div_le
    rw [zpow_neg, ← div_eq_mul_inv, le_div_iff₀ hu, hvalue] at this
    exact this
  have habove : (m : ℚ) * 2 ^ q < (a + 1) * 10 ^ unit := by
    have : (num : ℚ) / den * 10 ^ (-unit) < a + 1 := by
      rw [← hscaled, ← ha, div_lt_iff₀ hpos]
      exact_mod_cast (Nat.div_lt_iff_lt_mul (by exact_mod_cast hpos)).1 (Nat.lt_succ_self _)
    rw [zpow_neg, ← div_eq_mul_inv, div_lt_iff₀ hu, hvalue] at this
    exact this
  have hsmall : (m : ℚ) ≤ 2 ^ 53 := by exact_mod_cast h.small.le
  have hgrid : (10 : ℚ) ^ unit * 10 ^ 16 ≤ m * 2 ^ q := by
    rw [hvalue, zpow_add₀ (by norm_num)] at hunit
    exact_mod_cast hunit
  have hlow : ((4 * m - quarters m q : ℕ) : ℚ) * 2 ^ (q - 2) = (m - quarters m q / 4) * 2 ^ q := by
    have := quarters_le m q
    rw [Nat.cast_sub (by omega), zpow_sub₀ (by norm_num)]
    push_cast
    ring
  have hhigh : ((4 * m + 2 : ℕ) : ℚ) * 2 ^ (q - 2) = (m + 1 / 2) * 2 ^ q := by
    rw [zpow_sub₀ (by norm_num)]
    push_cast
    ring
  rw [Interval.of_eq]
  generalize (10 : ℚ) ^ unit = u at *
  generalize (2 : ℚ) ^ q = w at *
  have hquarters : (quarters m q : ℚ) ≤ 2 := by exact_mod_cast quarters_le m q
  have hone : (1 : ℚ) ≤ quarters m q := by
    unfold quarters
    split <;> norm_num
  have hmw : (m : ℚ) * w ≤ 2 ^ 53 * w := mul_le_mul_of_nonneg_right hsmall hw.le
  by_cases hnear : (a + 1) * u - m * w ≤ u / 2
  · -- the candidate above is the nearer one
    refine Or.inr (Interval.holds_of_lt ?_ ?_)
    · rw [hlow]
      push_cast
      nlinarith
    · rw [hhigh]
      push_cast
      linarith
  · rw [not_le] at hnear
    by_cases hpower : m = 2 ^ 52 ∧ -1074 < q
    · -- the interval is narrow below a power of two, but the grid is finer there
      have hm52 : (m : ℚ) = 2 ^ 52 := by exact_mod_cast hpower.1
      refine Or.inr (Interval.holds_of_lt ?_ ?_)
      · rw [hlow]
        push_cast
        nlinarith
      · rw [hhigh]
        push_cast
        rw [hm52] at hgrid hbelow ⊢
        linarith
    · have htwo : (quarters m q : ℚ) = 2 := by
        rw [quarters, if_neg hpower]
        norm_num
      refine Or.inl (Interval.holds_of_lt ?_ ?_)
      · rw [hlow, htwo]
        linarith
      · rw [hhigh]
        linarith

/-! ## The shortest decimal -/

theorem Decimal.trim_value (d : Decimal) : d.trim.value = d.value := by
  rw [Decimal.trim]
  split
  · rename_i h
    rw [Decimal.trim_value ⟨d.digits / 10, d.exponent + 1⟩, Decimal.value, Decimal.value]
    have hten : (d.digits : ℚ) = 10 * (d.digits / 10 : ℕ) := by
      exact_mod_cast (Nat.mul_div_cancel' (Nat.dvd_of_mod_eq_zero h.2)).symm
    rw [hten, zpow_add_one₀ (by norm_num)]
    ring
  · rfl
termination_by d.digits
decreasing_by
  rename_i h
  exact Nat.div_lt_self (Nat.pos_of_ne_zero h.1) (by decide)

/-- The shortest decimal lies in the interval of its number. -/
theorem shortest_holds (h : Normal m q) (hm : m ≠ 0) :
    (Interval.of m q).Holds (shortest m q).value := by
  obtain ⟨num, den, hfraction⟩ : ∃ num den, Binary64.fraction m q = (num, den) := ⟨_, _, rfl⟩
  have hden : den ≠ 0 := by
    have hscaled : (scaleTwo m 1 q).2 ≠ 0 := scaleTwo_den one_ne_zero q
    rw [show scaleTwo m 1 q = (num, den) from hfraction] at hscaled
    exact hscaled
  have hvalue : (num : ℚ) / den = m * 2 ^ q := by
    have := scaleTwo_value m 1 q
    rw [show scaleTwo m 1 q = (num, den) from hfraction] at this
    rw [this, Nat.cast_one, div_one]
  have hm1 : (1 : ℚ) ≤ m := by exact_mod_cast Nat.one_le_iff_ne_zero.2 hm
  have hw : (0 : ℚ) < 2 ^ q := by positivity
  have hnum : num ≠ 0 := by
    rintro rfl
    rw [Nat.cast_zero, zero_div, eq_comm, mul_eq_zero, or_iff_left hw.ne'] at hvalue
    linarith
  -- the binary exponent, and from it the decimal one
  have hlow : -1074 ≤ floorLogTwo num den := by
    refine le_floorLogTwo hnum hden ?_
    rw [hvalue]
    calc (2 : ℚ) ^ (-1074 : ℤ) ≤ 2 ^ q := zpow_le_zpow_right₀ (by norm_num) h.least
      _ ≤ m * 2 ^ q := le_mul_of_one_le_left hw.le hm1
  have hhigh : floorLogTwo num den < 1024 := by
    refine floorLogTwo_lt hnum hden ?_
    rw [hvalue]
    have hsmall : (m : ℚ) < 2 ^ (53 : ℤ) := by exact_mod_cast h.small
    calc (m : ℚ) * 2 ^ q < 2 ^ (53 : ℤ) * 2 ^ q := mul_lt_mul_of_pos_right hsmall hw
      _ = 2 ^ (53 + q) := (zpow_add₀ (by norm_num) _ _).symm
      _ ≤ 2 ^ (1024 : ℤ) := zpow_le_zpow_right₀ (by norm_num) (by have := h.greatest; omega)
  have hstart := le_trans (estimate_le hlow (by omega)) (floorLogTwo_spec hnum hden).1
  have hleading := @leadingExponent_le num den hden 4 _ hstart
  have hdef : shortest m q = (search (Interval.of m q) num den 17
      (leadingExponent num den 4 ((floorLogTwo num den * 30103).fdiv 100000 + 2))).trim := by
    rw [shortest, if_neg hm, hfraction]
  rw [hdef, Decimal.trim_value]
  refine search_holds ⟨16, by decide, seventeen_digits hden h hm hvalue ?_⟩
  rw [Nat.cast_ofNat, sub_add_cancel]
  exact hleading

/-! ## Reading decimals -/

theorem digitCount_spec {n : Nat} (hn : n ≠ 0) :
    0 < digitCount n ∧ 10 ^ (digitCount n - 1) ≤ n ∧ n < 10 ^ digitCount n := by
  have hpos : 0 < digitCount n := Nat.length_toDigits_pos
  refine ⟨hpos, ?_, (Nat.length_toDigits_le_iff (by decide) hpos).1 (Nat.le_refl _)⟩
  by_cases hone : digitCount n = 1
  · rw [hone]
    exact Nat.one_le_iff_ne_zero.2 hn
  · refine not_lt.1 fun hlt => ?_
    have := (Nat.length_toDigits_le_iff (by decide) (by omega)).2 hlt
    rw [← digitCount] at this
    omega

/-- The exponent in front of the leading digit. -/
theorem Decimal.value_bounds {d : Decimal} (hd : d.digits ≠ 0) :
    (10 : ℚ) ^ (d.exponent + digitCount d.digits - 1) ≤ d.value ∧
      d.value < 10 ^ (d.exponent + (digitCount d.digits : Int)) := by
  obtain ⟨hpos, hlow, hhigh⟩ := digitCount_spec hd
  have hten : (0 : ℚ) < 10 ^ d.exponent := by positivity
  have hcast : (((digitCount d.digits - 1 : ℕ) : ℤ)) = (digitCount d.digits : ℤ) - 1 := by omega
  constructor
  · rw [add_sub_assoc, ← hcast, zpow_add₀ (by norm_num), zpow_natCast, mul_comm]
    exact mul_le_mul_of_nonneg_right (by exact_mod_cast hlow) hten.le
  · rw [zpow_add₀ (by norm_num), zpow_natCast, mul_comm]
    exact mul_lt_mul_of_pos_right (by exact_mod_cast hhigh) hten

/-- The interval of a number lies far inside of the range in which decimals are looked at. -/
theorem Interval.range_of_holds (h : Normal m q) (hm : m ≠ 0) {x : ℚ}
    (hx : (Interval.of m q).Holds x) : (10 : ℚ) ^ (-400 : ℤ) < x ∧ x < 10 ^ (400 : ℤ) := by
  obtain ⟨hlow, hhigh, -⟩ := Interval.holds_of hm hx
  have hw : (0 : ℚ) < 2 ^ q := by positivity
  have hy : x = x * 2 ^ (-q) * 2 ^ q := by
    rw [mul_assoc, ← zpow_add₀ (by norm_num), neg_add_cancel, zpow_zero, mul_one]
  have hm1 : (1 : ℚ) ≤ m := by exact_mod_cast Nat.one_le_iff_ne_zero.2 hm
  have hsmall : (m : ℚ) + 1 ≤ 2 ^ 53 := by exact_mod_cast h.small
  have hquarters : (quarters m q : ℚ) ≤ 2 := by exact_mod_cast quarters_le m q
  have hleast : (10 : ℚ) ^ (-400 : ℤ) ≤ 2 ^ (-1076 : ℤ) := by
    have htable : decimalLe 1 (-400) 1 (-1076) = true := by decide +kernel
    rw [decimalLe_iff, Nat.cast_one, one_mul, one_mul] at htable
    exact htable
  have hgreatest : (2 : ℚ) ^ (1024 : ℤ) ≤ 10 ^ (400 : ℤ) := by
    have htable : binaryLe 1 1024 1 400 = true := by decide +kernel
    rw [binaryLe_iff, Nat.cast_one, one_mul, one_mul] at htable
    exact htable
  constructor
  · calc (10 : ℚ) ^ (-400 : ℤ) ≤ 2 ^ (-1076 : ℤ) := hleast
      _ ≤ 2 ^ (q + -2) := zpow_le_zpow_right₀ (by norm_num) (by have := h.least; omega)
      _ = 1 / 4 * 2 ^ q := by
          rw [zpow_add₀ (by norm_num)]
          norm_num
          ring
      _ < x * 2 ^ (-q) * 2 ^ q := mul_lt_mul_of_pos_right (by linarith) hw
      _ = x := hy.symm
  · calc x = x * 2 ^ (-q) * 2 ^ q := hy
      _ < 2 ^ 53 * 2 ^ q := mul_lt_mul_of_pos_right (by linarith) hw
      _ = 2 ^ (53 + q) := by
          rw [zpow_add₀ (by norm_num)]
          norm_num
      _ ≤ 2 ^ (1024 : ℤ) := zpow_le_zpow_right₀ (by norm_num) (by have := h.greatest; omega)
      _ ≤ 10 ^ (400 : ℤ) := hgreatest

/-- A decimal in the interval of a normal number is read as that number. -/
theorem toBinary64?_eq (h : Normal m q) (hm : m ≠ 0) {d : Decimal}
    (hd : (Interval.of m q).Holds d.value) :
    d.toBinary64? false = some (.finite false m q) := by
  obtain ⟨hmin, hmax⟩ := Interval.range_of_holds h hm hd
  have hdigits : d.digits ≠ 0 := by
    intro hzero
    rw [Decimal.value, hzero, Nat.cast_zero, zero_mul] at hmin
    exact absurd hmin (not_lt.2 (by positivity))
  obtain ⟨hfirst, hnext⟩ := Decimal.value_bounds hdigits
  have hten : (1 : ℚ) < 10 := by norm_num
  have hupper : ¬ d.exponent + (digitCount d.digits : Int) > exponentLimit := by
    have := (zpow_lt_zpow_iff_right₀ hten).1 (lt_of_le_of_lt hfirst hmax)
    rw [exponentLimit]
    omega
  have hlower : ¬ d.exponent + (digitCount d.digits : Int) < -exponentLimit := by
    have := (zpow_lt_zpow_iff_right₀ hten).1 (lt_trans hmin hnext)
    rw [exponentLimit]
    omega
  have hround : binary64.round (scaleTen d.digits 1 d.exponent).1
      (scaleTen d.digits 1 d.exponent).2 = some (m, q) := by
    refine round_eq (scaleTen_den one_ne_zero _) h hm ?_
    rw [scaleTen_value, Nat.cast_one, div_one]
    exact hd
  rw [Decimal.toBinary64?, if_neg hdigits]
  dsimp only
  rw [if_neg hupper, if_neg hlower, Binary64.ofFraction?, hround]
  rfl

end Componentry.Number
