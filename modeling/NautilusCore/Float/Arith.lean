import NautilusCore.Float.Rounding
import Mathlib.Data.Rat.Floor

/-!
# What the `f64` operations compute

The value of a finite pattern is the rational `(-1)^neg · sig · 2^exp`. On finite operands
and below `2^1023`, every operation the modelled code uses is its exact result rounded once by
`fl`, which `Rounds x q` states ("`x` is finite and its value is `fl q`"):

Results:
* `rounds_mul`, `rounds_div`, `rounds_ofInt`: `*`, `/` and `i64 as f64` are correctly
  rounded;
* `round_spec`: `f64::round` is finite and gives the nearest integer, halves away from zero;
* `toI64_of_int`: `as i64` on an integral value within `i64` is that integer;
* `le_eq_decide`: IEEE `<=` on finite values compares their values;
* `isFinite_of_le_of_le`: a value between two finite bounds is finite (so not a NaN);
* `add_eq_nan_iff`, `mul_eq_nan_iff`, `div_eq_nan_iff`: with a finite left operand, `+` and `-`
  give a NaN only for a NaN, `*` also for a zero times an infinity, `/` also for a zero over a
  zero;
* `near_of_two_roundings`, `near_of_three_roundings`: two or three roundings in a row stay
  within half a unit of an integer of at most 50 bits.
-/

namespace NautilusCore.F64

/-! ## Values -/

/-- The rational value of a finite pattern; `0` for the others. -/
def Decoded.val : Decoded → ℚ
  | .finite neg s e => (if neg then -1 else 1) * (s * 2 ^ e)
  | _ => 0

/-- The rational value of `x` when it is finite. -/
def val (x : F64) : ℚ := x.decode.val

/-- `x` is neither an infinity nor a NaN. -/
def IsFinite (x : F64) : Prop := ∃ neg s e, x.decode = .finite neg s e

/-- `x` is the binary64 rounding of `q`: finite, with the value `fl q`. -/
structure Rounds (x : F64) (q : ℚ) : Prop where
  finite : x.IsFinite
  val_eq : x.val = fl q

theorem val_of_decode {x : F64} {neg : Bool} {s : ℕ} {e : ℤ}
    (h : x.decode = .finite neg s e) : x.val = (if neg then -1 else 1) * (s * 2 ^ e) := by
  simp [val, h, Decoded.val]

theorem decode_finite_bounds {x : F64} {neg : Bool} {s : ℕ} {e : ℤ}
    (h : x.decode = .finite neg s e) : s < 2 ^ 53 ∧ -1074 ≤ e := by
  unfold decode at h
  dsimp only at h
  split at h
  · split at h <;> cases h
  · split at h <;> cases h <;> omega

theorem abs_sign_mul (neg : Bool) (q : ℚ) : |(if neg then -1 else 1) * q| = |q| := by
  cases neg <;> simp

theorem sign_xor (a b : Bool) :
    (if (a != b) then -1 else 1 : ℚ) = (if a then -1 else 1) * (if b then -1 else 1) := by
  cases a <;> cases b <;> simp

/-! ## Correctly rounded operations -/

/-- The magnitudes this development meets are far below the overflow threshold `2^1023`. -/
theorem lt_two_pow_1023 {q : ℚ} (h : q < 2 ^ 64) : q < 2 ^ 1023 :=
  h.trans (pow_lt_pow_right₀ (by norm_num) (by norm_num))

theorem rounds_roundToF64 (neg : Bool) {N D : ℕ} (hD : 0 < D) (hq : (N : ℚ) / D < 2 ^ 1023) :
    Rounds (roundToF64 neg N D) ((if neg then -1 else 1) * (N / D)) := by
  obtain ⟨m, e, hdec, hval⟩ := roundToF64_spec neg hD hq
  have hM : (0 : ℚ) ≤ N / D := by clear hq; positivity
  exact ⟨⟨neg, m, e, hdec⟩, by
    rw [val_of_decode hdec, hval, roundVal_eq_roundQ N hD, sign_mul_roundQ neg hM]⟩

theorem rounds_roundScaled (neg : Bool) (sig : ℕ) (exp : ℤ) {den : ℕ} (hden : 0 < den)
    (hq : (sig : ℚ) * 2 ^ exp / den < 2 ^ 1023) :
    Rounds (roundScaled neg sig exp den) ((if neg then -1 else 1) * (sig * 2 ^ exp / den)) := by
  unfold roundScaled
  split
  · have e : ((sig * 2 ^ exp.toNat : ℕ) : ℚ) / den = sig * 2 ^ exp / den := by
      push_cast; rw [← zpow_natCast, Int.toNat_of_nonneg ‹_›]
    rw [← e] at hq ⊢
    exact rounds_roundToF64 neg hden hq
  · have e : (sig : ℚ) / ((den * 2 ^ (-exp).toNat : ℕ) : ℚ) = sig * 2 ^ exp / den := by
      push_cast
      rw [← zpow_natCast, Int.toNat_of_nonneg (by omega), zpow_neg, div_mul_eq_div_div,
        div_inv_eq_mul]
      ring
    rw [← e] at hq ⊢
    exact rounds_roundToF64 neg (Nat.mul_pos hden (Nat.two_pow_pos _)) hq

theorem rounds_mul {x y : F64} (hx : x.IsFinite) (hy : y.IsFinite)
    (h : |x.val * y.val| < 2 ^ 1023) : Rounds (mul x y) (x.val * y.val) := by
  obtain ⟨a, s, e, hx⟩ := hx
  obtain ⟨b, t, f, hy⟩ := hy
  have key : x.val * y.val =
      (if (a != b) then -1 else 1) * (((s * t : ℕ) : ℚ) * 2 ^ (e + f) / (1 : ℕ)) := by
    rw [val_of_decode hx, val_of_decode hy, zpow_add₀ two_ne_zero, sign_xor]
    push_cast
    ring
  have hM : (0 : ℚ) ≤ ((s * t : ℕ) : ℚ) * 2 ^ (e + f) / (1 : ℕ) := by clear h; positivity
  rw [key, abs_sign_mul, abs_of_nonneg hM] at h
  simp only [mul, hx, hy]
  rw [key]
  exact rounds_roundScaled _ _ _ one_pos h

theorem rounds_div {x y : F64} (hx : x.IsFinite) (hy : y.IsFinite) (hy0 : y.val ≠ 0)
    (h : |x.val / y.val| < 2 ^ 1023) : Rounds (div x y) (x.val / y.val) := by
  obtain ⟨a, s, e, hx⟩ := hx
  obtain ⟨b, t, f, hy⟩ := hy
  have ht : t ≠ 0 := by rintro rfl; simp [val_of_decode hy] at hy0
  have key : x.val / y.val = (if (a != b) then -1 else 1) * ((s : ℚ) * 2 ^ (e - f) / t) := by
    rw [val_of_decode hx, val_of_decode hy, zpow_sub₀ two_ne_zero, sign_xor]
    cases a <;> cases b <;> simp only [Bool.false_eq_true, if_true, if_false] <;> ring
  have hM : (0 : ℚ) ≤ (s : ℚ) * 2 ^ (e - f) / t := by clear h; positivity
  rw [key, abs_sign_mul, abs_of_nonneg hM] at h
  simp only [div, hx, hy, if_neg ht]
  rw [key]
  exact rounds_roundScaled _ _ _ (Nat.pos_of_ne_zero ht) h

theorem rounds_ofInt (z : ℤ) (h : |(z : ℚ)| < 2 ^ 1023) : Rounds (ofInt z) z := by
  have key : (z : ℚ) = (if decide (z < 0) then -1 else 1) * ((z.natAbs : ℕ) / ((1 : ℕ) : ℚ)) := by
    rw [Nat.cast_natAbs, Int.cast_abs]
    rcases lt_or_le z 0 with hz | hz
    · simp [hz, abs_of_neg (Int.cast_lt_zero.mpr hz)]
    · simp [not_lt.mpr hz, abs_of_nonneg (Int.cast_nonneg.mpr hz)]
  have hq : ((z.natAbs : ℕ) : ℚ) / ((1 : ℕ) : ℚ) < 2 ^ 1023 := by
    rwa [Nat.cast_one, div_one, Nat.cast_natAbs, Int.cast_abs]
  unfold ofInt
  rw [key]
  exact rounds_roundToF64 _ one_pos hq


/-! ## `round`, `as i64` and `<=` -/

/-- The integer nearest `q`, half-way cases away from zero. -/
def roundAway (q : ℚ) : ℤ := if q < 0 then -⌊-q + 1 / 2⌋ else ⌊q + 1 / 2⌋

theorem floor_half : ⌊(1 / 2 : ℚ)⌋ = 0 := Int.floor_eq_zero_iff.mpr (by norm_num)

theorem roundAway_intCast (z : ℤ) : roundAway z = z := by
  unfold roundAway
  split
  · rw [← Int.cast_neg, Int.floor_int_add, floor_half]; ring
  · rw [Int.floor_int_add, floor_half, add_zero]

theorem roundAway_eq_of_near {q : ℚ} {n : ℤ} (h : |q - n| < 1 / 2) : roundAway q = n := by
  obtain ⟨h1, h2⟩ := abs_lt.mp h
  unfold roundAway
  split
  · rw [neg_eq_iff_eq_neg, Int.floor_eq_iff, Int.cast_neg]
    constructor <;> linarith only [h1, h2]
  · rw [Int.floor_eq_iff]
    constructor <;> linarith only [h1, h2]

/-- An integer bound on `|q|` bounds the rounded integer. -/
theorem abs_roundAway_le {q : ℚ} {B : ℤ} (h : |q| ≤ B) : |roundAway q| ≤ B := by
  obtain ⟨h1, h2⟩ := abs_le.mp h
  unfold roundAway
  split_ifs with hq
  · rw [abs_neg, abs_of_nonneg (Int.floor_nonneg.mpr (by linarith only [hq]))]
    exact Int.floor_le_iff.mpr (by linarith only [h1])
  · rw [abs_of_nonneg (Int.floor_nonneg.mpr (by linarith only [hq]))]
    exact Int.floor_le_iff.mpr (by linarith only [h2])

theorem roundAway_mono {q q' : ℚ} (h : q ≤ q') : roundAway q ≤ roundAway q' := by
  unfold roundAway
  split_ifs with h1 h2 h2
  · exact neg_le_neg (Int.floor_mono (add_le_add_right (neg_le_neg h) _))
  · have := Int.floor_nonneg.mpr (by linarith only [h1] : (0 : ℚ) ≤ -q + 1 / 2)
    have := Int.floor_nonneg.mpr (by linarith only [h2] : (0 : ℚ) ≤ q' + 1 / 2)
    omega
  · exact absurd (lt_of_le_of_lt h h2) h1
  · exact Int.floor_mono (add_le_add_right h _)

/-- Rounding halves away from zero is odd. -/
theorem roundAway_neg (q : ℚ) : roundAway (-q) = -roundAway q := by
  unfold roundAway
  rcases lt_trichotomy q 0 with h | rfl | h
  · rw [if_neg (by linarith only [h]), if_pos h, neg_neg]
  · simp only [neg_zero, lt_irrefl, if_false, zero_add, floor_half]
  · rw [if_pos (by linarith only [h]), if_neg (by linarith only [h]), neg_neg]

/-- Rounding to an integer, halves away from zero, moves by at most a half. -/
theorem abs_roundAway_sub_le (q : ℚ) : |(roundAway q : ℚ) - q| ≤ 1 / 2 := by
  unfold roundAway
  split_ifs
  -- on each side of `0` it is Mathlib's `round`, halves up, of `q` or of `-q`
  · have h := abs_sub_round (-q)
    rw [round_eq, abs_sub_comm] at h
    rwa [Int.cast_neg, neg_sub_left, abs_neg, add_comm, ← sub_neg_eq_add]
  · have h := abs_sub_round q
    rwa [round_eq, abs_sub_comm] at h

/-- Rounding to `f64` and then to an integer is off by at most a half and the `f64` error. -/
theorem abs_roundAway_fl_sub_le (X : ℚ) : |(roundAway (fl X) : ℚ) - X| ≤ 1 / 2 + |X| / 2 ^ 53 := by
  rcases le_or_lt ((2 : ℚ) ^ (-1022 : ℤ)) |X| with hX | hX
  · calc |(roundAway (fl X) : ℚ) - X| = |((roundAway (fl X) : ℚ) - fl X) + (fl X - X)| := by
          rw [sub_add_sub_cancel]
      _ ≤ |(roundAway (fl X) : ℚ) - fl X| + |fl X - X| := abs_add _ _
      _ ≤ 1 / 2 + |X| / 2 ^ 53 := add_le_add (abs_roundAway_sub_le _) (abs_fl_sub_le hX)
  -- below the normal range `fl X` is below a half, so the integer is `0`
  have hsmall : (2 : ℚ) ^ (-1022 : ℤ) < 1 / 2 := by
    rw [zpow_neg, zpow_ofNat, one_div]
    exact inv_strictAnti₀ two_pos (by norm_num)
  have hB : fl ((2 : ℚ) ^ (-1022 : ℤ)) = 2 ^ (-1022 : ℤ) := by
    have h := @fl_exact 1 (-1022) (by norm_num) (by norm_num)
    rwa [Int.cast_one, one_mul] at h
  have h0 : roundAway (fl X) = 0 := roundAway_eq_of_near (by
    rw [Int.cast_zero, sub_zero]; exact lt_of_le_of_lt (abs_fl_le hB hX.le) hsmall)
  rw [h0, Int.cast_zero, zero_sub, abs_neg]
  linarith only [hX.trans hsmall, (by positivity : 0 ≤ |X| / 2 ^ 53)]

theorem floor_natCast_div (m : ℕ) {n : ℕ} (hn : 0 < n) : ⌊(m : ℚ) / n⌋ = (m / n : ℕ) := by
  have hn' : (0 : ℚ) < n := by exact_mod_cast hn
  rw [Int.floor_eq_iff, le_div_iff₀ hn', div_lt_iff₀ hn']
  push_cast
  constructor
  · exact_mod_cast Nat.div_mul_le_self m n
  · exact_mod_cast (by rw [Nat.mul_comm]; exact Nat.lt_mul_div_succ m hn : m < (m / n + 1) * n)

/-- What `f64::round` computes for the magnitude `s · 2^-k`: `⌊s · 2^-k + 1/2⌋`. -/
theorem floor_add_half_eq (s k : ℕ) :
    ⌊(s : ℚ) / 2 ^ k + 1 / 2⌋ = ((2 * s + 2 ^ k) / 2 ^ (k + 1) : ℕ) := by
  rw [← floor_natCast_div _ (Nat.two_pow_pos _)]
  congr 1
  push_cast
  field_simp
  ring

/-- A significand below `2^53` scaled by `2^-k`, `k ≥ 1`, rounds to an integer below `2^53`. -/
theorem roundMagnitude_lt {s k : ℕ} (hs : s < 2 ^ 53) (hk : 1 ≤ k) :
    (2 * s + 2 ^ k) / 2 ^ (k + 1) < 2 ^ 53 := by
  have h2 : 2 ≤ 2 ^ k := Nat.le_self_pow (by omega) 2
  apply Nat.div_lt_of_lt_mul
  rw [pow_succ]
  omega

/-- `f64::round` keeps an integer and otherwise adds a half to the magnitude and truncates;
the result is an integer below `2^53`, hence exact. -/
theorem round_spec {x : F64} (hx : x.IsFinite) :
    (round x).IsFinite ∧ (round x).val = roundAway x.val := by
  obtain ⟨neg, s, e, hdec⟩ := hx
  have hv := val_of_decode hdec
  have hs := (decode_finite_bounds hdec).1
  unfold round
  rw [hdec]
  dsimp only
  split
  · refine ⟨⟨neg, s, e, hdec⟩, ?_⟩
    have hz : x.val = (((if neg then -1 else 1) * (s * 2 ^ e.toNat : ℕ) : ℤ) : ℚ) := by
      rw [hv]; push_cast; rw [← zpow_natCast, Int.toNat_of_nonneg ‹_›]
    rw [hz, roundAway_intCast]
  · set k := (-e).toNat
    have hk : (2 : ℚ) ^ e = 1 / 2 ^ k := by
      rw [← zpow_natCast, Int.toNat_of_nonneg (by omega), zpow_neg, one_div, inv_inv]
    set M := (2 * s + 2 ^ k) / 2 ^ (k + 1)
    have hM : ⌊(s : ℚ) * 2 ^ e + 1 / 2⌋ = M := by rw [hk, mul_one_div, floor_add_half_eq]
    have hMlt : M < 2 ^ 53 := roundMagnitude_lt hs (by omega)
    have hr := @rounds_roundToF64 neg M 1 one_pos
      (lt_two_pow_1023 (by
        rw [Nat.cast_one, div_one]
        exact_mod_cast hMlt.trans (Nat.pow_lt_pow_right (by norm_num) (by norm_num))))
    refine ⟨hr.finite, ?_⟩
    have hex : fl ((if neg then -1 else 1) * ((M : ℕ) / ((1 : ℕ) : ℚ))) =
        (if neg then -1 else 1) * M := by
      rw [← sign_mul_roundQ neg (by positivity), Nat.cast_one, div_one,
        show (M : ℚ) = (M : ℕ) * 2 ^ (0 : ℤ) by simp, roundQ_exact hMlt (by norm_num)]
    rw [hr.val_eq, hex, hv]
    cases neg
    · simp only [Bool.false_eq_true, if_false, one_mul]
      rw [roundAway, if_neg (not_lt.mpr (by positivity)), hM, Int.cast_natCast]
    · simp only [if_true, neg_one_mul]
      rcases Nat.eq_zero_or_pos s with rfl | hs0
      · rw [Nat.cast_zero, zero_mul, zero_add, floor_half] at hM
        have hM0 : M = 0 := by exact_mod_cast hM.symm
        rw [hM0, Nat.cast_zero, zero_mul, neg_zero, roundAway, if_neg (lt_irrefl 0), zero_add,
          floor_half, Int.cast_zero]
      · have : (0 : ℚ) < s * 2 ^ e := by positivity
        rw [roundAway, if_pos (neg_lt_zero.mpr this), neg_neg, hM]
        push_cast
        ring

theorem truncInt_of_int {neg : Bool} {s : ℕ} {e : ℤ} {z : ℤ}
    (h : (if neg then -1 else 1) * ((s : ℚ) * 2 ^ e) = z) : truncInt neg s e = z := by
  have habs : (s : ℚ) * 2 ^ e = z.natAbs := by
    have := congrArg abs h
    rwa [abs_sign_mul, abs_of_nonneg (by positivity), ← Int.cast_abs, ← Nat.cast_natAbs] at this
  have hm : ((if 0 ≤ e then s * 2 ^ e.toNat else s / 2 ^ (-e).toNat : ℕ) : ℚ) = s * 2 ^ e := by
    split
    · push_cast; rw [← zpow_natCast, Int.toNat_of_nonneg ‹_›]
    · have hk : (2 : ℚ) ^ e = 1 / 2 ^ (-e).toNat := by
        rw [← zpow_natCast, Int.toNat_of_nonneg (by omega), zpow_neg, one_div, inv_inv]
      have hsN : s = z.natAbs * 2 ^ (-e).toNat := by
        rw [hk] at habs
        field_simp at habs
        exact_mod_cast habs
      rw [habs, hsN, Nat.mul_div_cancel _ (Nat.two_pow_pos _)]
  have ht : truncInt neg s e = if neg then
      -((if 0 ≤ e then s * 2 ^ e.toNat else s / 2 ^ (-e).toNat : ℕ) : ℤ)
      else ((if 0 ≤ e then s * 2 ^ e.toNat else s / 2 ^ (-e).toNat : ℕ) : ℤ) := rfl
  rw [ht]
  rw [← hm] at h
  generalize (if 0 ≤ e then s * 2 ^ e.toNat else s / 2 ^ (-e).toNat : ℕ) = m at h
  cases neg <;> simp only [Bool.false_eq_true, if_true, if_false, one_mul, neg_mul] at h ⊢ <;>
    exact_mod_cast h

/-- `as i64` on a finite value that is an integer in range gives that integer. -/
theorem toI64_of_int {x : F64} (hx : x.IsFinite) {z : ℤ} (hz : x.val = z) (h1 : i64Min ≤ z)
    (h2 : z ≤ i64Max) : (toI64 x).val = z := by
  obtain ⟨neg, s, e, hdec⟩ := hx
  rw [val_of_decode hdec] at hz
  simp only [toI64, hdec, truncInt_of_int hz, I64.saturate_of_mem h1 h2]

theorem scaledInt_mul_zpow (neg : Bool) (s : ℕ) {k : ℤ} (hk : 0 ≤ k) (m : ℤ) :
    (scaledInt neg s k : ℚ) * 2 ^ m = (if neg then -1 else 1) * (s * 2 ^ (k + m)) := by
  have : ((s * 2 ^ k.toNat : ℕ) : ℚ) = s * 2 ^ k := by
    push_cast; rw [← zpow_natCast, Int.toNat_of_nonneg hk]
  unfold scaledInt
  rw [zpow_add₀ two_ne_zero]
  cases neg <;> simp only [Bool.false_eq_true, if_true, if_false, Int.cast_neg, Int.cast_natCast,
    this] <;> ring

/-- IEEE `<=` of finite values is `≤` of their values. -/
theorem le_eq_decide {x y : F64} (hx : x.IsFinite) (hy : y.IsFinite) :
    le x y = decide (x.val ≤ y.val) := by
  obtain ⟨a, s, e, hx⟩ := hx
  obtain ⟨b, t, f, hy⟩ := hy
  have h1 := scaledInt_mul_zpow a s (by omega : 0 ≤ e - min e f) (min e f)
  have h2 := scaledInt_mul_zpow b t (by omega : 0 ≤ f - min e f) (min e f)
  rw [sub_add_cancel] at h1 h2
  simp only [le, hx, hy, val_of_decode hx, val_of_decode hy, ← h1, ← h2,
    mul_le_mul_right (zpow_pos (two_pos : (0 : ℚ) < 2) _), Int.cast_le]

theorem isFinite_of_le_of_le {l x r : F64} (hl : l.IsFinite) (hr : r.IsFinite)
    (h1 : le l x = true) (h2 : le x r = true) : x.IsFinite := by
  obtain ⟨a, s, e, hl⟩ := hl
  obtain ⟨b, t, f, hr⟩ := hr
  unfold le at h1 h2
  rw [hl] at h1
  rw [hr] at h2
  rcases hx : x.decode with ⟨c, u, g⟩ | c | _
  · exact ⟨_, _, _, hx⟩
  · rw [hx] at h1 h2; cases c <;> simp at h1 h2
  · rw [hx] at h1; simp at h1


/-! ## Two roundings in a row -/

/-- The magnitudes this development meets are far above the subnormal range. -/
theorem zpow_neg_1022_le {q : ℚ} (h : 1 / 2 ^ 100 ≤ q) : (2 : ℚ) ^ (-1022 : ℤ) ≤ q := by
  refine le_trans ?_ h
  rw [zpow_neg, ← one_div, zpow_ofNat]
  exact div_le_div_of_nonneg_left zero_le_one (by norm_num)
    (pow_le_pow_right₀ (by norm_num) (by norm_num))

/-- Rounding `X`, multiplying by `Y` and rounding again is off by at most
`2 · 2^-53 + 2^-106` relatively, above the subnormal range. -/
theorem abs_fl_fl_mul_sub_le {X Y : ℚ} (hX : (2 : ℚ) ^ (-1022 : ℤ) ≤ |X|)
    (hXY : (2 : ℚ) ^ (-1022 : ℤ) ≤ |fl X * Y|) :
    |fl (fl X * Y) - X * Y| ≤ |X * Y| * (2 / 2 ^ 53 + 1 / 2 ^ 106) := by
  have h1 := abs_fl_sub_le hX
  have h2 := abs_fl_sub_le hXY
  rw [abs_mul] at h2
  have hflX : |fl X| ≤ |X| * (1 + 1 / 2 ^ 53) :=
    calc |fl X| = |X + (fl X - X)| := by ring_nf
      _ ≤ |X| + |fl X - X| := abs_add _ _
      _ ≤ |X| * (1 + 1 / 2 ^ 53) := by linarith
  calc |fl (fl X * Y) - X * Y| = |(fl (fl X * Y) - fl X * Y) + (fl X - X) * Y| := by ring_nf
    _ ≤ |fl (fl X * Y) - fl X * Y| + |fl X - X| * |Y| := by rw [← abs_mul]; exact abs_add _ _
    _ ≤ |fl X| * |Y| / 2 ^ 53 + |X| / 2 ^ 53 * |Y| :=
        add_le_add h2 (mul_le_mul_of_nonneg_right h1 (abs_nonneg Y))
    _ ≤ |X| * (1 + 1 / 2 ^ 53) * |Y| / 2 ^ 53 + |X| / 2 ^ 53 * |Y| :=
        add_le_add_right (div_le_div_of_nonneg_right
          (mul_le_mul_of_nonneg_right hflX (abs_nonneg Y)) (by norm_num)) _
    _ = |X * Y| * (2 / 2 ^ 53 + 1 / 2 ^ 106) := by rw [abs_mul]; ring


theorem half_le_abs_fl {X : ℚ} (hX : (2 : ℚ) ^ (-1022 : ℤ) ≤ |X|) : |X| / 2 ≤ |fl X| := by
  have h := abs_fl_sub_le hX
  have : |X| - |fl X| ≤ |X| / 2 ^ 53 := by
    calc |X| - |fl X| ≤ |fl X - X| := by
          rw [abs_sub_comm]; exact abs_sub_abs_le_abs_sub X (fl X)
      _ ≤ |X| / 2 ^ 53 := h
  have : |X| / 2 ^ 53 ≤ |X| / 2 := div_le_div_of_nonneg_left (abs_nonneg X) two_pos (by norm_num)
  linarith

/-- Rounding `X`, multiplying by `Y`, rounding again and scaling by `S` stays within half a
unit of an integer `n = X · Y · S` of at most 50 bits, when `X` and `Y` are not tiny. -/
theorem near_of_two_roundings {X Y S : ℚ} {n : ℤ} (hS : 0 < S) (h : X * Y * S = n)
    (hn : |(n : ℚ)| ≤ 2 ^ 50) (hX : n ≠ 0 → 1 / 10 ^ 9 ≤ |X|) (hY : 1 / 10 ^ 9 ≤ |Y|) :
    |fl (fl X * Y) * S - n| < 1 / 2 := by
  have hY0 : Y ≠ 0 := abs_pos.mp (lt_of_lt_of_le (by norm_num) hY)
  rcases eq_or_ne n 0 with rfl | hn0
  · have hX0 : X = 0 := by
      have : X * Y = 0 := by
        have := h; push_cast at this; exact (mul_eq_zero.mp this).resolve_right hS.ne'
      exact (mul_eq_zero.mp this).resolve_right hY0
    rw [hX0, fl_zero, zero_mul, fl_zero]
    norm_num
  have hXb := hX hn0
  have hX' : (2 : ℚ) ^ (-1022 : ℤ) ≤ |X| := zpow_neg_1022_le (le_trans (by norm_num) hXb)
  have hfX : (2 : ℚ) ^ (-1022 : ℤ) ≤ |fl X * Y| := by
    refine zpow_neg_1022_le ?_
    rw [abs_mul]
    calc (1 : ℚ) / 2 ^ 100 ≤ (1 / 10 ^ 9 / 2) * (1 / 10 ^ 9) := by norm_num
      _ ≤ |X| / 2 * |Y| := mul_le_mul (by linarith) hY (by norm_num) (by positivity)
      _ ≤ |fl X| * |Y| := mul_le_mul_of_nonneg_right (half_le_abs_fl hX') (abs_nonneg Y)
  have herr := abs_fl_fl_mul_sub_le hX' hfX
  have e : fl (fl X * Y) * S - n = (fl (fl X * Y) - X * Y) * S := by rw [← h]; ring
  rw [e, abs_mul, abs_of_pos hS]
  calc |fl (fl X * Y) - X * Y| * S ≤ |X * Y| * (2 / 2 ^ 53 + 1 / 2 ^ 106) * S :=
        mul_le_mul_of_nonneg_right herr hS.le
    _ = |(n : ℚ)| * (2 / 2 ^ 53 + 1 / 2 ^ 106) := by
        rw [← h, abs_mul (X * Y), abs_of_pos hS]; ring
    _ ≤ 2 ^ 50 * (2 / 2 ^ 53 + 1 / 2 ^ 106) := mul_le_mul_of_nonneg_right hn (by norm_num)
    _ < 1 / 2 := by norm_num

/-- Rounding an integer `R`, dividing by `D` and rounding, then multiplying by `P` and rounding
once more stays within half a unit of an integer `n = R / D · P` of at most 50 bits: the three
relative errors of `2^-53` add up to about `3/8` of a unit. -/
theorem near_of_three_roundings {R D P : ℚ} {n : ℤ} (hD : 0 < D) (hD9 : D ≤ 10 ^ 9) (hP : 1 ≤ P)
    (h : R / D * P = n) (hn : |(n : ℚ)| ≤ 2 ^ 50) (hR : n ≠ 0 → 1 ≤ |R|) :
    |fl (fl (fl R / D) * P) - n| < 1 / 2 := by
  rcases eq_or_ne n 0 with rfl | hn0
  · have hR0 : R = 0 := by
      have : R / D * P = 0 := by exact_mod_cast h
      exact (div_eq_zero_iff.mp ((mul_eq_zero.mp this).resolve_right (by linarith only [hP]))
        ).resolve_right hD.ne'
    simp [hR0, fl_zero]
  have hR1 := hR hn0
  have hR' : (2 : ℚ) ^ (-1022 : ℤ) ≤ |R| := zpow_neg_1022_le (le_trans (by norm_num) hR1)
  have hDinv : 1 / 10 ^ 9 ≤ |D⁻¹| := by
    rw [abs_inv, abs_of_pos hD, ← one_div]
    exact div_le_div_of_nonneg_left zero_le_one hD hD9
  have hRD : 1 / (2 * 10 ^ 9) ≤ |fl R * D⁻¹| := by
    rw [abs_mul]
    calc (1 : ℚ) / (2 * 10 ^ 9) = 1 / 2 * (1 / 10 ^ 9) := by norm_num
      _ ≤ |fl R| * |D⁻¹| :=
        mul_le_mul (le_trans (by linarith only [hR1]) (half_le_abs_fl hR')) hDinv (by norm_num)
          (abs_nonneg _)
  -- the quotient, rounded twice, is within `2 · 2^-53` of `R / D`
  set A := fl (fl R / D)
  have hA : |A - R * D⁻¹| ≤ |R * D⁻¹| * (2 / 2 ^ 53 + 1 / 2 ^ 106) := by
    simpa only [A, div_eq_mul_inv] using
      abs_fl_fl_mul_sub_le hR' (zpow_neg_1022_le (le_trans (by norm_num) hRD))
  have hAP : (2 : ℚ) ^ (-1022 : ℤ) ≤ |A * P| := by
    refine zpow_neg_1022_le ?_
    have hfl := half_le_abs_fl (zpow_neg_1022_le (le_trans (by norm_num) hRD))
    rw [← div_eq_mul_inv] at hfl
    rw [abs_mul, abs_of_pos (by linarith only [hP] : (0 : ℚ) < P)]
    calc (1 : ℚ) / 2 ^ 100 ≤ 1 / (2 * 10 ^ 9) / 2 := by norm_num
      _ ≤ |A| := le_trans (div_le_div_of_nonneg_right hRD two_pos.le) hfl
      _ ≤ |A| * P := le_mul_of_one_le_right (abs_nonneg _) hP
  -- the last product, exact, is within that error of `n`
  have hAn : |A * P - n| ≤ |(n : ℚ)| * (2 / 2 ^ 53 + 1 / 2 ^ 106) := by
    have hP0 : (0 : ℚ) < P := by linarith only [hP]
    rw [← h, show A * P - R / D * P = (A - R * D⁻¹) * P by ring, abs_mul, abs_of_pos hP0,
      abs_mul (R / D), abs_of_pos hP0, div_eq_mul_inv]
    calc |A - R * D⁻¹| * P ≤ |R * D⁻¹| * (2 / 2 ^ 53 + 1 / 2 ^ 106) * P :=
          mul_le_mul_of_nonneg_right hA hP0.le
      _ = |R * D⁻¹| * P * (2 / 2 ^ 53 + 1 / 2 ^ 106) := by ring
  have hlast := abs_fl_sub_le hAP
  have hAPn := abs_sub_abs_le_abs_sub (A * P) n
  calc |fl (A * P) - n| ≤ |fl (A * P) - A * P| + |A * P - n| := abs_sub_le _ _ _
    _ < 1 / 2 := by linarith only [hlast, hAn, hAPn, hn, abs_nonneg (n : ℚ)]

/-! ## Where a NaN comes from -/

theorem isNan_eq_true {x : F64} : x.isNan = true ↔ x.decode = .nan := by
  unfold isNan; cases x.decode <;> simp

theorem isInfinite_eq_true {x : F64} : x.isInfinite = true ↔ ∃ b, x.decode = .inf b := by
  unfold isInfinite; cases x.decode <;> simp

theorem val_eq_zero_iff {x : F64} {a : Bool} {s : ℕ} {e : ℤ} (hd : x.decode = .finite a s e) :
    x.val = 0 ↔ s = 0 := by
  rw [val_of_decode hd]
  constructor
  · intro h
    have h' : (s : ℚ) * 2 ^ e = 0 := by split_ifs at h <;> linarith only [h]
    exact_mod_cast (mul_eq_zero.mp h').resolve_right (zpow_ne_zero _ two_ne_zero)
  · rintro rfl; simp

theorem decode_nan : nan.decode = .nan := by
  rw [nan, decode_ofFields false (by norm_num) (by norm_num)]; rfl

theorem decode_inf (neg : Bool) : (inf neg).decode = .inf neg := by
  rw [inf, decode_ofFields neg (by norm_num) (by norm_num)]; rfl

/-- Negation flips the sign of what a pattern stands for, and keeps a NaN a NaN. -/
theorem decode_neg (x : F64) :
    (neg x).decode = match x.decode with
      | .finite n s e => .finite (!n) s e
      | .inf n => .inf (!n)
      | .nan => .nan := by
  have hw : x.bits.toNat < 2 ^ 64 := x.bits.toNat_lt_size
  have hb : (neg x).bits.toNat = (x.bits.toNat + 2 ^ 63) % 2 ^ 64 := by
    simp [neg, UInt64.add_def, UInt64.toNat, Fin.val_add]
  have hsign : decide (2 ^ 63 ≤ (x.bits.toNat + 2 ^ 63) % 2 ^ 64) =
      !decide (2 ^ 63 ≤ x.bits.toNat) := by
    rcases Nat.lt_or_ge x.bits.toNat (2 ^ 63) with h | h
    · rw [decide_eq_true (by omega), decide_eq_false (by omega)]; rfl
    · rw [decide_eq_false (by omega), decide_eq_true h]; rfl
  have hbe : (x.bits.toNat + 2 ^ 63) % 2 ^ 64 / 2 ^ 52 % 2 ^ 11 =
      x.bits.toNat / 2 ^ 52 % 2 ^ 11 := by omega
  have hfrac : (x.bits.toNat + 2 ^ 63) % 2 ^ 64 % 2 ^ 52 = x.bits.toNat % 2 ^ 52 := by omega
  simp only [decode, hb, hsign, hbe, hfrac]
  split_ifs <;> rfl

theorem neg_eq_nan_iff (x : F64) : (neg x).decode = .nan ↔ x.decode = .nan := by
  rw [decode_neg]; cases x.decode <;> simp

theorem isFinite_neg {x : F64} : (neg x).IsFinite ↔ x.IsFinite := by
  simp only [IsFinite, decode_neg]
  cases x.decode <;> simp

@[simp] theorem val_neg (x : F64) : (neg x).val = -x.val := by
  simp only [val, decode_neg]
  rcases x.decode with ⟨_ | _, s, e⟩ | _ | _ <;> simp [Decoded.val]

/-- Rounding a rational never gives a NaN. -/
theorem roundToF64_ne_nan (neg : Bool) {N D : ℕ} (hD : 0 < D) :
    (roundToF64 neg N D).decode ≠ .nan := by
  unfold roundToF64
  split
  · rw [zero, decode_ofFields neg (by norm_num) (by norm_num)]; simp
  have hN : 0 < N := Nat.pos_of_ne_zero ‹_›
  obtain ⟨hm53, hnorm⟩ := scaledRound_quantum hN hD
  have he0 := (quantum_spec hN hD).1
  dsimp only
  split_ifs with h1 h2 h3
  · rw [decode_inf]; simp
  · rw [decode_encodeFinite neg (by norm_num) (by omega) (by omega) (by norm_num)]; simp
  · rw [decode_inf]; simp
  · rw [decode_encodeFinite neg (by omega) he0 (by omega)
      (fun _ => hnorm.resolve_right (by omega))]
    simp

theorem roundScaled_ne_nan (neg : Bool) (sig : ℕ) (exp : ℤ) {den : ℕ} (hden : 0 < den) :
    (roundScaled neg sig exp den).decode ≠ .nan := by
  unfold roundScaled
  split <;> exact roundToF64_ne_nan neg (by positivity)

/-- A finite value plus `y` is a NaN only when `y` is. -/
theorem add_eq_nan_iff {x : F64} (hx : x.IsFinite) (y : F64) :
    (add x y).decode = .nan ↔ y.decode = .nan := by
  obtain ⟨a, s, e, hx⟩ := hx
  unfold add
  rw [hx]
  cases hy : y.decode with
  | nan => simp [decode_nan]
  | inf b => simp [decode_inf]
  | finite b t f =>
    dsimp only
    split_ifs
    · rw [zero, decode_ofFields _ (by norm_num) (by norm_num)]; simp
    · simp [roundScaled_ne_nan _ _ _ one_pos]

/-- A finite value `±s · 2^e` times `y` is a NaN when `y` is, or when `s = 0` and `y` is an
infinity. -/
theorem mul_eq_nan_iff {x : F64} {a : Bool} {s : ℕ} {e : ℤ} (hx : x.decode = .finite a s e)
    (y : F64) :
    (mul x y).decode = .nan ↔ y.decode = .nan ∨ s = 0 ∧ ∃ b, y.decode = .inf b := by
  unfold mul
  rw [hx]
  cases hy : y.decode with
  | nan => simp [decode_nan]
  | inf b => by_cases hs : s = 0 <;> simp [hs, decode_nan, decode_inf]
  | finite b t f => simp [roundScaled_ne_nan _ _ _ one_pos]

/-- A finite value `±s · 2^e` over `y` is a NaN when `y` is, or when `s = 0` and `y` is a
zero. -/
theorem div_eq_nan_iff {x : F64} {a : Bool} {s : ℕ} {e : ℤ} (hx : x.decode = .finite a s e)
    (y : F64) :
    (div x y).decode = .nan ↔ y.decode = .nan ∨ s = 0 ∧ ∃ b f, y.decode = .finite b 0 f := by
  unfold div
  rw [hx]
  cases hy : y.decode with
  | nan => simp [decode_nan]
  | inf b => dsimp only; rw [zero, decode_ofFields _ (by norm_num) (by norm_num)]; simp
  | finite b t f =>
    dsimp only
    by_cases ht : t = 0
    · by_cases hs : s = 0 <;> simp [ht, hs, decode_nan, decode_inf]
    · simp [ht, roundScaled_ne_nan _ _ _ (Nat.pos_of_ne_zero ht)]

end NautilusCore.F64
