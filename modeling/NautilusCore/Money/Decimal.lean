import NautilusCore.Money.Arith
import Mathlib.Algebra.Order.Field.Basic
import Mathlib.Tactic.FieldSimp
import Mathlib.Tactic.Ring

/-!
# `Money::as_decimal`

`as_decimal` divides the raw value by `10^(9 - precision)` with `i64`'s truncating `/` and
reads the quotient at scale `precision`. Call a value *aligned* when its raw value is a
multiple of `10^(9 - precision)` (`Money::new` builds only such values); then the division is
exact.

Results:
* `asDecimal_eq`: for `precision ≤ 9`, `as_decimal` returns `raw.tdiv 10^(9 - precision)` at
  scale `precision`, in every profile.
* `asDecimal_of_aligned`: on an aligned value it is exactly `raw / 10^9`; sums, differences
  and (away from `i64::MIN`) negations of aligned values are aligned and `as_decimal` is
  additive on them (`asDecimal_add`, `asDecimal_sub`, `asDecimal_neg`), and `le` compares
  the decimals (`le_iff_asDecimal`).
* `asDecimal_neg_min_release`: without overflow checks, `-x` for `x.raw = i64::MIN` at
  precision `9` returns `x` itself, so `as_decimal(-x) = as_decimal(x) ≠ -as_decimal(x)`.
* `asDecimal_returns_iff`: `as_decimal` returns exactly when `precision ≤ 9`, in both
  profiles: above `9`, `FIXED_PRECISION - precision` panics with overflow checks, and without
  them wraps to at least `237` for `precision ≤ 28`, where `10^k` wraps to `0` and the division
  panics, while a larger precision is past the `28` digits a `Decimal` can scale.
-/

namespace NautilusCore

theorem uint8_le_iff (a b : UInt8) : a ≤ b ↔ a.toNat ≤ b.toNat := Iff.rfl

theorem u8Sub_of_le (prof : Profile) {a b : UInt8} (h : b.toNat ≤ a.toNat) :
    ∃ r : UInt8, u8Sub prof a b = .ret r ∧ r.toNat = a.toNat - b.toNat := by
  have hba : b ≤ a := (uint8_le_iff b a).mpr h
  exact ⟨a - b, by simp [u8Sub, hba], UInt8.toNat_sub_of_le a b hba⟩

/-- A `u8` subtraction that goes below zero returns only without overflow checks, and then
wraps modulo `256`. -/
theorem u8Sub_eq_ret_of_lt {prof : Profile} {a b r : UInt8} (h : a.toNat < b.toNat)
    (hr : u8Sub prof a b = .ret r) :
    prof.overflowChecks = false ∧ r.toNat = 256 + a.toNat - b.toNat := by
  unfold u8Sub at hr
  rw [if_neg (fun hle => absurd ((uint8_le_iff b a).mp hle) (by omega))] at hr
  split_ifs at hr with hc
  cases hr
  refine ⟨by simpa using hc, ?_⟩
  have := b.toNat_lt_size
  show (a.toBitVec - b.toBitVec).toNat = _
  rw [BitVec.toNat_sub]
  change (2 ^ 8 - b.toNat + a.toNat) % 2 ^ 8 = _
  simp only [UInt8.size] at this
  omega

namespace I64

/-- A multiple of `2^64` wraps to `0`. -/
theorem wrap_val_of_dvd {z : ℤ} (h : ((2 ^ 64 : ℕ) : ℤ) ∣ z) : (wrap z).val = 0 := by
  show z.bmod (2 ^ 64) = 0
  rw [Int.bmod, Int.emod_eq_zero_of_dvd h]
  rfl

theorem pow_ten (prof : Profile) {k : ℕ} (hk : k ≤ 18) :
    ∃ r, pow prof ten k = .ret r ∧ r.val = 10 ^ k := by
  have h1 : (10 : ℤ) ^ k ≤ 10 ^ 18 := pow_le_pow_right₀ (by norm_num) hk
  have h2 : (0 : ℤ) < 10 ^ k := by positivity
  exact ⟨_, arith_of_mem prof _ (by norm_num [ten, i64Min]; omega)
    (by norm_num [ten, i64Max]; omega), by simp [ten]⟩

theorem tdiv_mem (a : I64) {d : ℤ} (hd : 0 < d) :
    i64Min ≤ a.val.tdiv d ∧ a.val.tdiv d ≤ i64Max := by
  have := a.min_le
  have := a.le_max
  rcases le_or_lt 0 a.val with h | h
  · rw [Int.tdiv_eq_ediv h hd.le]
    have := Int.ediv_le_self d h
    have := Int.ediv_nonneg h hd.le
    unfold i64Min at *; omega
  · have e : a.val.tdiv d = -((-a.val) / d) := by
      rw [← Int.tdiv_eq_ediv (by omega) hd.le, Int.neg_tdiv, neg_neg]
    have := Int.ediv_le_self d (show 0 ≤ -a.val by omega)
    have := Int.ediv_nonneg (show 0 ≤ -a.val by omega) hd.le
    unfold i64Max at *; omega

theorem div_of_pos (a b : I64) (hb : 0 < b.val) :
    ∃ r, div a b = .ret r ∧ r.val = a.val.tdiv b.val := by
  obtain ⟨h1, h2⟩ := tdiv_mem a hb
  refine ⟨⟨_, h1, h2⟩, ?_, rfl⟩
  simp [div, hb.ne', ofInt?, h1, h2]

end I64

namespace Money

/-- The raw value is a multiple of `10^(9 - precision)`, and `precision ≤ 9`. -/
def Aligned (x : Money) : Prop :=
  x.currency.precision.toNat ≤ 9 ∧ (10 : ℤ) ^ (9 - x.currency.precision.toNat) ∣ x.raw.val

instance (x : Money) : Decidable x.Aligned := inferInstanceAs (Decidable (_ ∧ _))

theorem asDecimal_eq (prof : Profile) (x : Money) (hp : x.currency.precision.toNat ≤ 9) :
    x.asDecimal prof =
      .ret ⟨x.raw.val.tdiv (10 ^ (9 - x.currency.precision.toNat)),
        x.currency.precision.toNat⟩ := by
  obtain ⟨k, hk, hkv⟩ := u8Sub_of_le prof (a := fixedPrecision) (b := x.currency.precision) hp
  have hk9 : k.toNat = 9 - x.currency.precision.toNat := by rw [hkv]; rfl
  obtain ⟨p, hp', hpv⟩ := I64.pow_ten prof (k := k.toNat) (by omega)
  obtain ⟨q, hq, hqv⟩ := I64.div_of_pos x.raw p (by rw [hpv]; positivity)
  have hq96 : q.val.natAbs < 2 ^ 96 := by
    have := q.min_le; have := q.le_max; unfold i64Min i64Max at *; omega
  rw [hk9] at hpv hp'
  simp only [asDecimal, hk, Run.ret_bind, hk9, hp', hq, Decimal.fromI128WithScale]
  rw [if_neg (by omega), if_neg (not_le.mpr hq96), hqv, hpv]

theorem tdiv_val_of_dvd {r : ℤ} {p : ℕ} (hp : p ≤ 9) (h : (10 : ℤ) ^ (9 - p) ∣ r) :
    ((r.tdiv (10 ^ (9 - p)) : ℤ) : ℚ) / 10 ^ p = r / 10 ^ 9 := by
  obtain ⟨c, rfl⟩ := h
  rw [Int.mul_tdiv_cancel_left _ (by positivity)]
  have : (10 : ℚ) ^ 9 = 10 ^ (9 - p) * 10 ^ p := by rw [← pow_add]; congr 1; omega
  rw [this]; push_cast; field_simp; ring

/-- On an aligned value `as_decimal` is exactly `raw / 10^9`. -/
theorem asDecimal_of_aligned (prof : Profile) {x : Money} (h : x.Aligned) :
    ∃ d, x.asDecimal prof = .ret d ∧ d.val = x.raw.val / 10 ^ 9 :=
  ⟨_, asDecimal_eq prof x h.1, tdiv_val_of_dvd h.1 h.2⟩

theorem add_aligned {x y z : Money} (hx : x.Aligned) (hy : y.Aligned) (h : x.add y = .ret z) :
    z.Aligned ∧ z.raw.val = x.raw.val + y.raw.val := by
  obtain ⟨hc, hv, hzc⟩ := (add_eq_ret x y z).mp h
  refine ⟨⟨hzc ▸ hx.1, ?_⟩, hv⟩
  rw [hv, hzc]
  exact dvd_add hx.2 (hc ▸ hy.2)

theorem sub_aligned {x y z : Money} (hx : x.Aligned) (hy : y.Aligned) (h : x.sub y = .ret z) :
    z.Aligned ∧ z.raw.val = x.raw.val - y.raw.val := by
  obtain ⟨hc, hv, hzc⟩ := (sub_eq_ret x y z).mp h
  refine ⟨⟨hzc ▸ hx.1, ?_⟩, hv⟩
  rw [hv, hzc]
  exact dvd_sub hx.2 (hc ▸ hy.2)

/-- `as_decimal(x + y) = as_decimal(x) + as_decimal(y)` on aligned values. -/
theorem asDecimal_add (prof : Profile) {x y z : Money} (hx : x.Aligned) (hy : y.Aligned)
    (h : x.add y = .ret z) :
    ∃ dx dy dz, x.asDecimal prof = .ret dx ∧ y.asDecimal prof = .ret dy ∧
      z.asDecimal prof = .ret dz ∧ z.Aligned ∧ dz.val = dx.val + dy.val := by
  obtain ⟨hz, hv⟩ := add_aligned hx hy h
  obtain ⟨dx, h1, e1⟩ := asDecimal_of_aligned prof hx
  obtain ⟨dy, h2, e2⟩ := asDecimal_of_aligned prof hy
  obtain ⟨dz, h3, e3⟩ := asDecimal_of_aligned prof hz
  exact ⟨dx, dy, dz, h1, h2, h3, hz, by rw [e1, e2, e3, hv]; push_cast; ring⟩

/-- `as_decimal(x - y) = as_decimal(x) - as_decimal(y)` on aligned values. -/
theorem asDecimal_sub (prof : Profile) {x y z : Money} (hx : x.Aligned) (hy : y.Aligned)
    (h : x.sub y = .ret z) :
    ∃ dx dy dz, x.asDecimal prof = .ret dx ∧ y.asDecimal prof = .ret dy ∧
      z.asDecimal prof = .ret dz ∧ z.Aligned ∧ dz.val = dx.val - dy.val := by
  obtain ⟨hz, hv⟩ := sub_aligned hx hy h
  obtain ⟨dx, h1, e1⟩ := asDecimal_of_aligned prof hx
  obtain ⟨dy, h2, e2⟩ := asDecimal_of_aligned prof hy
  obtain ⟨dz, h3, e3⟩ := asDecimal_of_aligned prof hz
  exact ⟨dx, dy, dz, h1, h2, h3, hz, by rw [e1, e2, e3, hv]; push_cast; ring⟩

/-- `as_decimal(-x) = -as_decimal(x)` on an aligned value whose negation is exact: every raw
value but `i64::MIN`. -/
theorem asDecimal_neg (prof : Profile) {x : Money} (hx : x.Aligned) (hmin : x.raw.val ≠ i64Min) :
    ∃ z dx dz, x.neg prof = .ret z ∧ x.asDecimal prof = .ret dx ∧
      z.asDecimal prof = .ret dz ∧ z.Aligned ∧ dz.val = -dx.val := by
  obtain ⟨z, hz, hv, hc⟩ := neg_of_ne_min prof hmin
  have hza : z.Aligned := ⟨hc ▸ hx.1, by rw [hv, hc]; exact (dvd_neg).mpr hx.2⟩
  obtain ⟨dx, h1, e1⟩ := asDecimal_of_aligned prof hx
  obtain ⟨dz, h3, e3⟩ := asDecimal_of_aligned prof hza
  exact ⟨z, dx, dz, hz, h1, h3, hza, by rw [e1, e3, hv]; push_cast; ring⟩

/-- With overflow checks, `-x` returns only where it is exact. -/
theorem neg_exact_of_checks {prof : Profile} (hc : prof.overflowChecks = true) {x z : Money}
    (h : x.neg prof = .ret z) : x.raw.val ≠ i64Min := by
  rintro hmin
  obtain ⟨r, c⟩ := x
  obtain rfl : r = I64.min := I64.ext_val hmin
  simp [neg, I64.neg_min, hc] at h

/-- On one currency, `x <= y` compares the aligned values' decimals. -/
theorem le_iff_asDecimal (prof : Profile) {x y : Money} (hx : x.Aligned) (hy : y.Aligned)
    (hc : x.currency = y.currency) :
    ∃ dx dy, x.asDecimal prof = .ret dx ∧ y.asDecimal prof = .ret dy ∧
      x.le y = .ret (decide (dx.val ≤ dy.val)) := by
  obtain ⟨dx, h1, e1⟩ := asDecimal_of_aligned prof hx
  obtain ⟨dy, h2, e2⟩ := asDecimal_of_aligned prof hy
  refine ⟨dx, dy, h1, h2, ?_⟩
  rw [le, compareBy, hc, assertEq_self, Run.ret_bind, e1, e2]
  simp only [Run.pure_eq, div_le_div_iff_of_pos_right (show (0 : ℚ) < 10 ^ 9 by positivity),
    Int.cast_le]

/-- Without overflow checks, `Neg` wraps `i64::MIN` to itself: at precision `9` that value is
aligned, and `as_decimal(-x)` is `as_decimal(x)`, not its negation. -/
theorem asDecimal_neg_min_release :
    (fromRaw I64.min ⟨"SOL", 9⟩).Aligned ∧
    (fromRaw I64.min ⟨"SOL", 9⟩).neg ⟨false⟩ = .ret (fromRaw I64.min ⟨"SOL", 9⟩) ∧
    (fromRaw I64.min ⟨"SOL", 9⟩).asDecimal ⟨false⟩ = .ret ⟨i64Min, 9⟩ ∧
    (⟨i64Min, 9⟩ : Decimal).val ≠ -(⟨i64Min, 9⟩ : Decimal).val := by
  refine ⟨⟨by decide, by decide⟩, by decide, by decide, ?_⟩
  norm_num [Decimal.val, i64Min]

/-! ## Precisions above `9` -/

/-- `as_decimal` returns exactly on the precisions `FIXED_PRECISION` covers. -/
theorem asDecimal_returns_iff (prof : Profile) (m : Money) :
    (∃ d, m.asDecimal prof = .ret d) ↔ m.currency.precision.toNat ≤ 9 := by
  refine ⟨fun ⟨d, h⟩ => ?_, fun hp => ⟨_, asDecimal_eq prof m hp⟩⟩
  by_contra hp
  obtain ⟨k, hk, h⟩ := Run.bind_eq_ret.mp h
  obtain ⟨pw, hpw, h⟩ := Run.bind_eq_ret.mp h
  obtain ⟨q, hq, h⟩ := Run.bind_eq_ret.mp h
  -- the scale check passed, so the precision is at most `28`
  have hp28 : m.currency.precision.toNat ≤ 28 := by
    unfold Decimal.fromI128WithScale at h; split_ifs at h; omega
  -- `9 - precision` wrapped
  have h9 : fixedPrecision.toNat = 9 := rfl
  obtain ⟨-, hk'⟩ := u8Sub_eq_ret_of_lt (by omega) hk
  have hk237 : 237 ≤ k.toNat := by omega
  -- `10^k` does not fit, so it wrapped, to `0`
  have hpw0 : pw.val = 0 := by
    rcases I64.arith_eq_ret hpw with h1 | ⟨-, rfl⟩
    · have hbig : (2 : ℤ) ^ 63 < 10 ^ k.toNat :=
        calc (2 : ℤ) ^ 63 < 10 ^ 237 := by norm_num
          _ ≤ 10 ^ k.toNat := pow_le_pow_right₀ (by norm_num) hk237
      have := pw.le_max
      rw [h1, show I64.ten.val = 10 from rfl] at this
      unfold i64Max at this
      omega
    · refine I64.wrap_val_of_dvd ?_
      rw [show I64.ten.val = 10 from rfl, show k.toNat = 64 + (k.toNat - 64) by omega, pow_add]
      exact Dvd.dvd.mul_right ⟨5 ^ 64, by norm_num⟩ _
  simp [I64.div, hpw0] at hq

end Money

end NautilusCore
