import NautilusCore.Money.RoundTrip

/-!
# Zeros and NaNs: `is_zero`, `as_decimal` and the `f64` operators

`is_zero` tests `raw == 0`. `as_f64` converts the raw value and divides it by `10^9`: one raw
unit is `10^-9`, far above the smallest subnormal, so the quotient is always finite and is a
zero only for a zero raw value, `i64::MIN` included. `as_decimal` first divides the raw value
by `10^(9 - precision)`, truncating: every raw value below one unit of the currency's precision
gives a zero decimal, so on a value that is not aligned to its precision `as_decimal` can be
zero where `is_zero` is `false`.

`Add<f64>`, `Sub<f64>`, `Mul<f64>` and `Div<f64>` apply the `f64` operation to `as_f64`. Since
that operand is finite, and a zero exactly when `is_zero`, they give a NaN only in IEEE's own
cases with that operand.

Results:
* `isZero_eq_asF64_eq_zero`: for every `Money`, `is_zero()` is `as_f64() == 0.0`;
* `asDecimal_val_eq_zero_iff`: for `precision ≤ 9`, `as_decimal()` is zero exactly when
  `|raw| < 10^(9 - precision)`;
* `arithF64_isNan`: `m + r` and `m - r` are NaN exactly when `r` is, `m * r` also when `m` is
  zero and `r` infinite, and `m / r` also when both are zero.
-/

namespace NautilusCore

namespace F64

/-- On a finite value `== 0.0` is the value being zero. -/
theorem eq_zero_iff_val {x : F64} (hx : x.IsFinite) : eq x (zero false) = true ↔ x.val = 0 := by
  obtain ⟨neg, s, e, hd⟩ := hx
  rw [eq_zero_iff, val_eq_zero_iff hd]
  constructor
  · rintro ⟨n, f, h⟩
    rw [hd] at h
    cases h
    rfl
  · rintro rfl
    exact ⟨neg, e, hd⟩

/-- A rounding of a value no smaller than `2^-100` in magnitude is not zero. -/
theorem fl_ne_zero {X : ℚ} (h : 1 / 2 ^ 100 ≤ |X|) : fl X ≠ 0 := by
  have hh := half_le_abs_fl (zpow_neg_1022_le h)
  intro h0
  rw [h0, abs_zero] at hh
  linarith only [hh, h, (by positivity : (0 : ℚ) < 1 / 2 ^ 100)]

end F64

namespace Money

theorem asF64_val_eq_zero_iff (m : Money) : m.asF64.val = 0 ↔ m.raw.val = 0 := by
  rw [(rounds_asF64 m).val_eq]
  constructor
  · intro h
    by_contra hne
    have h1 : (1 : ℚ) ≤ |(m.raw.val : ℚ)| := by exact_mod_cast Int.one_le_abs hne
    have h2 : (1 : ℚ) / 2 ≤ |F64.fl m.raw.val| :=
      le_trans (by linarith only [h1]) (F64.half_le_abs_fl (F64.zpow_neg_1022_le (by
        linarith only [h1, (by norm_num : (1 : ℚ) / 2 ^ 100 ≤ 1)])))
    refine F64.fl_ne_zero ?_ h
    rw [abs_div, abs_of_pos (by norm_num : (0 : ℚ) < 10 ^ 9)]
    calc (1 : ℚ) / 2 ^ 100 ≤ 1 / 2 / 10 ^ 9 := by norm_num
      _ ≤ _ := div_le_div_of_nonneg_right h2 (by norm_num)
  · intro h
    rw [h, Int.cast_zero, F64.fl_zero, zero_div, F64.fl_zero]

/-- `is_zero()` and `as_f64() == 0.0` agree on every value. -/
theorem isZero_eq_asF64_eq_zero (m : Money) : m.isZero = F64.eq m.asF64 (F64.zero false) := by
  rw [Bool.eq_iff_iff, F64.eq_zero_iff_val (rounds_asF64 m).finite, asF64_val_eq_zero_iff]
  simp [isZero]

/-- `as_decimal()` is zero exactly on the raw values below one unit of the currency's
precision. -/
theorem asDecimal_val_eq_zero_iff (prof : Profile) (m : Money)
    (hp : m.currency.precision.toNat ≤ 9) :
    ∃ d, m.asDecimal prof = .ret d ∧
      (d.val = 0 ↔ |m.raw.val| < 10 ^ (9 - m.currency.precision.toNat)) := by
  refine ⟨_, asDecimal_eq prof m hp, ?_⟩
  rw [Decimal.val, div_eq_zero_iff, or_iff_left (by positivity), Int.cast_eq_zero,
    ← Int.natAbs_eq_zero, Int.natAbs_tdiv]
  change m.raw.val.natAbs / ((10 : ℤ) ^ (9 - m.currency.precision.toNat)).natAbs = 0 ↔ _
  rw [Int.natAbs_pow, Nat.div_eq_zero_iff (by positivity), Int.abs_eq_natAbs]
  norm_cast

/-- `from_raw(5, USD)`: not zero, but below one cent, so its decimal is `0.00`. -/
theorem asDecimal_zero_of_unaligned :
    (fromRaw (I64.saturate 5) ⟨"USD", 2⟩).isZero = false ∧
      ∃ d, (fromRaw (I64.saturate 5) ⟨"USD", 2⟩).asDecimal ⟨true⟩ = .ret d ∧ d.val = 0 := by
  obtain ⟨d, hd, h0⟩ :=
    asDecimal_val_eq_zero_iff ⟨true⟩ (fromRaw (I64.saturate 5) ⟨"USD", 2⟩) (by decide)
  exact ⟨rfl, d, hd, h0.mpr (by decide)⟩

/-- With `as_f64` finite, and a zero exactly when `is_zero`, the `f64` operators give a NaN
only for a NaN operand, for `0 · ∞`, and for `0 / 0`. -/
theorem arithF64_isNan (m : Money) (r : F64) :
    (m.addF64 r).isNan = r.isNan ∧ (m.subF64 r).isNan = r.isNan ∧
      (m.mulF64 r).isNan = (r.isNan || m.isZero && r.isInfinite) ∧
      (m.divF64 r).isNan = (r.isNan || m.isZero && F64.eq r (F64.zero false)) := by
  obtain ⟨a, s, e, hd⟩ := (rounds_asF64 m).finite
  have hz : m.isZero = true ↔ s = 0 := by
    rw [← F64.val_eq_zero_iff hd, asF64_val_eq_zero_iff]; simp [isZero]
  refine ⟨?_, ?_, ?_, ?_⟩ <;> rw [Bool.eq_iff_iff, F64.isNan_eq_true]
  · rw [F64.isNan_eq_true]; exact F64.add_eq_nan_iff ⟨a, s, e, hd⟩ r
  · rw [F64.isNan_eq_true]
    exact (F64.add_eq_nan_iff ⟨a, s, e, hd⟩ _).trans (F64.neg_eq_nan_iff r)
  · rw [Bool.or_eq_true, Bool.and_eq_true, F64.isNan_eq_true, F64.isInfinite_eq_true, hz]
    exact F64.mul_eq_nan_iff hd r
  · rw [Bool.or_eq_true, Bool.and_eq_true, F64.isNan_eq_true, F64.eq_zero_iff, hz]
    exact F64.div_eq_nan_iff hd r

end Money

end NautilusCore
