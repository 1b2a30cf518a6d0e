import NautilusCore.Money.Decimal
import NautilusCore.Money.Parse
import NautilusCore.Float.Arith

/-!
# `Money::new` on an amount in range

`new_checked` checks `MONEY_MIN ≤ amount ≤ MONEY_MAX` in `f64`; `f64_to_fixed_i64` then scales
by `10^precision` in `f64`, rounds half away from zero, converts to `i64` and rescales to nine
places. The two bounds are integers that `f64` holds exactly, and so is `MONEY_MAX · 10^p` for
every `p ≤ 9` (its odd part `2305843009 · 5^p` is below `2^53`). Rounding is monotone, so it
never leaves the range: the raw value is the integer `scaledAmount p a`, at most
`MONEY_MAX · 10^p` in magnitude, times `10^(9 - p)`, and no step overflows in any profile.

Results:
* `new_spec`: for `precision ≤ 9` and an amount that passes the range check, `Money::new`
  returns the raw value `scaledAmount p a · 10^(9 - p)`;
* `new_returns_iff`: `Money::new` returns exactly when the range check passes and
  `precision ≤ 9`.
-/

namespace NautilusCore

/-- `MONEY_MAX · 10^9`, the largest raw value the range invariant allows. -/
def moneyRawMax : ℤ := 9223372036 * 10 ^ 9

theorem moneyRawMax_le : moneyRawMax ≤ i64Max := by norm_num [moneyRawMax, i64Max]

namespace Money

/-- The integer `f64_to_fixed_i64` scales an amount `a` to at precision `p`: `a · 10^p` rounded
to `f64`, then to the nearest integer, halves away from zero. -/
def scaledAmount (p : ℕ) (a : ℚ) : ℤ := F64.roundAway (F64.fl (a * 10 ^ p))

theorem scaledAmount_neg (p : ℕ) (a : ℚ) : scaledAmount p (-a) = -scaledAmount p a := by
  rw [scaledAmount, scaledAmount, neg_mul, F64.fl_neg, F64.roundAway_neg]

theorem rounds_moneyMax : F64.Rounds moneyMax 9223372036 :=
  F64.rounds_ofInt 9223372036 (F64.lt_two_pow_1023 (by norm_num))

theorem rounds_moneyMin : F64.Rounds moneyMin (-9223372036) :=
  F64.rounds_ofInt (-9223372036) (F64.lt_two_pow_1023 (by norm_num))

theorem val_moneyMax : moneyMax.val = 9223372036 := by
  rw [rounds_moneyMax.val_eq]
  exact_mod_cast F64.fl_intCast (by norm_num)

theorem val_moneyMin : moneyMin.val = -9223372036 := by
  rw [rounds_moneyMin.val_eq]
  exact_mod_cast F64.fl_intCast (by norm_num)

/-- The range check of `new_checked` passes exactly on the finite amounts of magnitude at most
`MONEY_MAX`. -/
theorem check_iff {a : F64} :
    (F64.le moneyMin a && F64.le a moneyMax) = true ↔ a.IsFinite ∧ |a.val| ≤ 9223372036 := by
  constructor
  · intro h
    rw [Bool.and_eq_true] at h
    have ha := F64.isFinite_of_le_of_le rounds_moneyMin.finite rounds_moneyMax.finite h.1 h.2
    rw [F64.le_eq_decide rounds_moneyMin.finite ha, F64.le_eq_decide ha rounds_moneyMax.finite,
      val_moneyMin, val_moneyMax, decide_eq_true_iff, decide_eq_true_iff] at h
    exact ⟨ha, abs_le.mpr h⟩
  · rintro ⟨ha, h⟩
    rw [Bool.and_eq_true, F64.le_eq_decide rounds_moneyMin.finite ha,
      F64.le_eq_decide ha rounds_moneyMax.finite, val_moneyMin, val_moneyMax,
      decide_eq_true_iff, decide_eq_true_iff]
    exact abs_le.mp h

/-- An amount that passes the comparisons is finite, so the check returns `Ok`. -/
theorem checkAmount_eq_ok {a : F64} (h : (F64.le moneyMin a && F64.le a moneyMax) = true) :
    checkInRangeInclusiveF64 a moneyMin moneyMax "amount" = .ok () := by
  obtain ⟨neg, s, e, hd⟩ := (check_iff.mp h).1
  have hn : a.isNan = false := Bool.eq_false_iff.mpr fun h' => by
    rw [F64.isNan_eq_true, hd] at h'; cases h'
  have hi : a.isInfinite = false := Bool.eq_false_iff.mpr fun h' => by
    obtain ⟨b, hb⟩ := F64.isInfinite_eq_true.mp h'; rw [hd] at hb; cases hb
  simp [checkInRangeInclusiveF64, hn, hi, h]

/-- The range check is symmetric: `-a` passes it exactly when `a` does. -/
theorem check_neg (a : F64) :
    (F64.le moneyMin (F64.neg a) && F64.le (F64.neg a) moneyMax) =
      (F64.le moneyMin a && F64.le a moneyMax) := by
  rw [Bool.eq_iff_iff, check_iff, check_iff, F64.isFinite_neg, F64.val_neg, abs_neg]

/-- `MONEY_MAX · 10^p` is a binary64 for `p ≤ 9`. -/
theorem fl_moneyMax_mul {p : ℕ} (hp : p ≤ 9) :
    F64.fl (9223372036 * 10 ^ p) = 9223372036 * 10 ^ p := by
  have hk : ((2305843009 * 5 ^ p : ℕ) : ℤ).natAbs < 2 ^ 53 := by
    rw [Int.natAbs_ofNat]
    calc 2305843009 * 5 ^ p ≤ 2305843009 * 5 ^ 9 :=
          Nat.mul_le_mul_left _ (Nat.pow_le_pow_right (by norm_num) hp)
      _ < 2 ^ 53 := by norm_num
  have e : (9223372036 : ℚ) * 10 ^ p = ((2305843009 * 5 ^ p : ℕ) : ℤ) * 2 ^ ((p : ℤ) + 2) := by
    rw [zpow_add₀ two_ne_zero, zpow_natCast]
    push_cast
    rw [show (10 : ℚ) = 5 * 2 by norm_num, mul_pow]
    ring
  rw [e, F64.fl_exact hk (by omega)]

theorem f64ToFixedI64_spec (prof : Profile) {a : F64} (ha : a.IsFinite)
    (hr : |a.val| ≤ 9223372036) {p : UInt8} (hp : p ≤ fixedPrecision) :
    ∃ r : I64, f64ToFixedI64 prof a p = .ret r ∧
      r.val = scaledAmount p.toNat a.val * 10 ^ (9 - p.toNat) ∧
      |scaledAmount p.toNat a.val| ≤ 9223372036 * 10 ^ p.toNat := by
  have hp9 : p.toNat ≤ 9 := hp
  have hsub : (fixedPrecision - p).toNat = 9 - p.toNat := UInt8.toNat_sub_of_le _ _ hp
  obtain ⟨pow1, hpow1, hv1⟩ := I64.pow_ten prof (by omega : p.toNat ≤ 18)
  obtain ⟨pow2, hpow2, hv2⟩ := I64.pow_ten prof (by omega : (fixedPrecision - p).toNat ≤ 18)
  rw [hsub] at hpow2 hv2
  have h10p : (10 : ℚ) ^ p.toNat ≤ 10 ^ 9 := pow_le_pow_right₀ (by norm_num) hp9
  have h10 : (0 : ℚ) < 10 ^ p.toNat := by positivity
  -- `10^p` as an `f64` is exact
  have hten : F64.Rounds (F64.ofInt (10 ^ p.toNat)) (10 ^ p.toNat) := by
    have := F64.rounds_ofInt (10 ^ p.toNat) (F64.lt_two_pow_1023 (by
      push_cast; rw [abs_of_pos h10]; linarith))
    rwa [Int.cast_pow, Int.cast_ofNat] at this
  have hten_val : (F64.ofInt (10 ^ p.toNat)).val = 10 ^ p.toNat := by
    have h := @F64.fl_intCast (10 ^ p.toNat) (by
      rw [Int.natAbs_pow]
      calc (Int.natAbs 10) ^ p.toNat ≤ 10 ^ 9 := Nat.pow_le_pow_right (by norm_num) hp9
        _ < 2 ^ 53 := by norm_num)
    push_cast at h
    rw [hten.val_eq, h]
  -- the scaled amount
  have hprod : |a.val * (F64.ofInt (10 ^ p.toNat)).val| ≤ 9223372036 * 10 ^ p.toNat := by
    rw [hten_val, abs_mul, abs_of_pos h10]
    exact mul_le_mul_of_nonneg_right hr h10.le
  have hmul := F64.rounds_mul ha hten.finite (F64.lt_two_pow_1023 (by
    calc _ ≤ (9223372036 : ℚ) * 10 ^ p.toNat := hprod
      _ ≤ 9223372036 * 10 ^ 9 := by linarith
      _ < 2 ^ 64 := by norm_num))
  rw [hten_val] at hmul hprod
  have hy : |(F64.mul a (F64.ofInt (10 ^ p.toNat))).val| ≤ 9223372036 * 10 ^ p.toNat := by
    rw [hmul.val_eq]; exact F64.abs_fl_le (fl_moneyMax_mul hp9) hprod
  obtain ⟨-, hround⟩ := F64.round_spec hmul.finite
  have hsa : F64.roundAway (F64.mul a (F64.ofInt (10 ^ p.toNat))).val =
      scaledAmount p.toNat a.val := by
    rw [hmul.val_eq]; rfl
  have hbound : |scaledAmount p.toNat a.val| ≤ 9223372036 * 10 ^ p.toNat := by
    rw [← hsa]; exact F64.abs_roundAway_le (by push_cast; exact hy)
  have hB : 9223372036 * 10 ^ p.toNat * 10 ^ (9 - p.toNat) = moneyRawMax := by
    rw [moneyRawMax, mul_assoc, ← pow_add, Nat.add_sub_cancel' hp9]
  have hB' : (9223372036 : ℤ) * 10 ^ p.toNat ≤ moneyRawMax := by
    rw [← hB]; exact le_mul_of_one_le_right (by positivity) (one_le_pow₀ (by norm_num))
  have hrange := abs_le.mp (hbound.trans (hB'.trans moneyRawMax_le))
  have hconv := F64.toI64_of_int (F64.round_spec hmul.finite).1 (hround.trans (by rw [hsa]))
    (by unfold i64Min i64Max at *; omega) hrange.2
  -- rescaling to nine places
  have hprod2 : |scaledAmount p.toNat a.val * 10 ^ (9 - p.toNat)| ≤ moneyRawMax := by
    rw [abs_mul, abs_of_pos (by positivity : (0 : ℤ) < 10 ^ (9 - p.toNat)), ← hB]
    exact mul_le_mul_of_nonneg_right hbound (by positivity)
  have hrange2 := abs_le.mp (hprod2.trans moneyRawMax_le)
  refine ⟨⟨_, by unfold i64Min i64Max at *; omega, hrange2.2⟩, ?_, rfl, hbound⟩
  simp only [f64ToFixedI64, hp, not_true_eq_false, if_false, hpow1, hpow2, Run.ret_bind,
    I64.mul, hv1, hconv, hv2, hsub]
  exact I64.arith_of_mem prof _ _ _

theorem new_spec (prof : Profile) {a : F64}
    (hck : (F64.le moneyMin a && F64.le a moneyMax) = true) {c : Currency}
    (hp : c.precision ≤ fixedPrecision) :
    ∃ r : I64, new prof a c = .ret ⟨r, c⟩ ∧
      r.val = scaledAmount c.precision.toNat a.val * 10 ^ (9 - c.precision.toNat) ∧
      |scaledAmount c.precision.toNat a.val| ≤ 9223372036 * 10 ^ c.precision.toNat := by
  obtain ⟨ha, hr⟩ := check_iff.mp hck
  obtain ⟨r, hf, hv, hb⟩ := f64ToFixedI64_spec prof ha hr hp
  exact ⟨r, by simp [new, newChecked, checkAmount_eq_ok hck, hf, expectOk], hv, hb⟩

theorem new_returns_iff (prof : Profile) (a : F64) (c : Currency) :
    (∃ m, new prof a c = .ret m) ↔
      (F64.le moneyMin a && F64.le a moneyMax) = true ∧ c.precision ≤ fixedPrecision := by
  constructor
  · rintro ⟨m, hm⟩
    by_cases hck : (F64.le moneyMin a && F64.le a moneyMax) = true
    · refine ⟨hck, ?_⟩
      by_contra hp
      simp [new, newChecked, checkAmount_eq_ok hck, f64ToFixedI64, hp] at hm
    · obtain ⟨e, he⟩ := newChecked_of_not_mem_range prof (Bool.eq_false_iff.mpr hck) c
      simp [new, he, expectOk] at hm
  · rintro ⟨hck, hp⟩
    obtain ⟨r, h, -⟩ := new_spec prof hck hp
    exact ⟨_, h⟩

end Money

end NautilusCore
