import NautilusCore.Float.Binary64
import Mathlib.Algebra.Order.Field.Power
import Mathlib.Tactic.Linarith
import Mathlib.Tactic.FieldSimp
import Mathlib.Tactic.Ring
import Mathlib.Tactic.Positivity

/-!
# Round to nearest, ties to even, on the rationals

The rational reading of `roundToF64`. `IsRNE x r` says that `r` is the integer nearest `x`,
ties to even, and `IsQuantum q e` that `e` is the exponent of the last significand digit of
`q` in binary64; `roundHalfEven`, `scaledRound` and `quantum` compute them. `roundVal N D` is
the value `roundToF64` gives `N / D` before it looks at overflow, `roundQ` the same as a
function of the rational `N / D`, and `fl` its signed form: the rounding that every `f64`
operation of the model performs (IEEE 754 §4.3.1).

Results:
* `roundToF64_spec`: below `2^1023`, `roundToF64` is finite, of the sign asked for, with the
  value `roundVal`;
* `abs_fl_sub_le`: above the subnormal range, rounding errs by at most `2^-53` relatively;
* `fl_mono`: rounding is monotone;
* `fl_exact`: `k · 2^f` with `|k| < 2^53` and `f ≥ -1074` is its own rounding.
-/

namespace NautilusCore.F64

/-! ## Bit patterns and `log2` -/

theorem decode_ofFields (neg : Bool) {be frac : ℕ} (hbe : be < 2048) (hf : frac < 2 ^ 52) :
    (ofFields neg be frac).decode =
      if be = 2047 then (if frac = 0 then .inf neg else .nan)
      else if be = 0 then .finite neg frac (-1074)
      else .finite neg (2 ^ 52 + frac) ((be : ℤ) - 1075) := by
  have hw : (if neg then 2 ^ 63 else 0) + be * 2 ^ 52 + frac < UInt64.size := by
    simp only [UInt64.size]; split <;> omega
  have h1 : ((if neg then 2 ^ 63 else 0) + be * 2 ^ 52 + frac) / 2 ^ 52 % 2 ^ 11 = be := by
    split <;> omega
  have h2 : ((if neg then 2 ^ 63 else 0) + be * 2 ^ 52 + frac) % 2 ^ 52 = frac := by
    split <;> omega
  have h3 : decide (2 ^ 63 ≤ (if neg then 2 ^ 63 else 0) + be * 2 ^ 52 + frac) = neg := by
    cases neg <;> simp <;> omega
  simp only [decode, ofFields, UInt64.toNat_ofNat_of_lt hw, h1, h2, h3]

/-- `log2 n` is `⌊log₂ n⌋`. -/
theorem log2_go_spec : ∀ (fuel n acc : ℕ), 0 < n → n ≤ fuel →
    ∃ k, log2.go fuel n acc = acc + k ∧ 2 ^ k ≤ n ∧ n < 2 ^ (k + 1)
  | 0, _, _, h0, h => absurd h (by omega)
  | fuel + 1, n, acc, h0, h => by
    unfold log2.go
    split
    · exact ⟨0, rfl, by simp; omega, by simp; omega⟩
    · obtain ⟨k, hk, h1, h2⟩ := log2_go_spec fuel (n / 2) (acc + 1) (by omega) (by omega)
      refine ⟨k + 1, by rw [hk]; ring, ?_, ?_⟩ <;> rw [pow_succ] <;> omega

theorem log2_spec {n : ℕ} (h : 0 < n) : 2 ^ log2 n ≤ n ∧ n < 2 ^ (log2 n + 1) := by
  obtain ⟨k, hk, h1, h2⟩ := log2_go_spec n n 0 h le_rfl
  simp only [log2, hk, zero_add]
  exact ⟨h1, h2⟩

/-! ## The nearest integer -/

/-- `r` is the integer nearest `x`, ties to even. -/
def IsRNE (x : ℚ) (r : ℕ) : Prop := |(r : ℚ) - x| ≤ 1 / 2 ∧ (|(r : ℚ) - x| = 1 / 2 → r % 2 = 0)

/-- Nearness to `n / d` is a fact about integers: `|r - n / d| · d = |r · d - n|`. -/
theorem isRNE_div_iff {n d r : ℕ} (hd : 0 < d) :
    IsRNE (n / d) r ↔ 2 * |(r * d : ℤ) - n| ≤ d ∧ (2 * |(r * d : ℤ) - n| = d → r % 2 = 0) := by
  have hdq : (0 : ℚ) < d := by exact_mod_cast hd
  have e : |(r : ℚ) - n / d| = ((|(r * d : ℤ) - n| : ℤ) : ℚ) / d := by
    rw [Int.cast_abs, ← abs_of_pos hdq, ← abs_div, abs_of_pos hdq]
    congr 1
    push_cast
    field_simp
  have hle : ∀ a : ℤ, (a : ℚ) / d ≤ 1 / 2 ↔ 2 * a ≤ d := fun a => by
    rw [div_le_iff₀ hdq, one_div_mul_eq_div, le_div_iff₀ two_pos, mul_comm]
    norm_cast
  have heq : ∀ a : ℤ, (a : ℚ) / d = 1 / 2 ↔ 2 * a = d := fun a => by
    rw [div_eq_div_iff hdq.ne' two_ne_zero, one_mul, mul_comm]
    norm_cast
  unfold IsRNE
  rw [e, hle, heq]

theorem roundHalfEven_isRNE (n : ℕ) {d : ℕ} (hd : 0 < d) : IsRNE (n / d) (roundHalfEven n d) := by
  rw [isRNE_div_iff hd]
  have h1 := Nat.div_add_mod' n d
  have h2 := Nat.mod_lt n hd
  unfold roundHalfEven
  generalize n / d = q at *
  generalize n % d = m at *
  dsimp only
  split_ifs
  · rw [Nat.cast_add, Nat.cast_one, add_mul, one_mul, abs_of_nonneg (by omega)]
    omega
  · rw [abs_of_nonpos (by omega)]
    omega

theorem IsRNE.mono {x y : ℚ} {r s : ℕ} (hr : IsRNE x r) (hs : IsRNE y s) (h : x ≤ y) : r ≤ s := by
  by_contra hlt
  have hlt' : (s : ℚ) + 1 ≤ r := by exact_mod_cast Nat.lt_of_not_le hlt
  have hrx := (abs_le.mp hr.1).2
  have hsy := (abs_le.mp hs.1).1
  -- `r - x ≤ 1/2`, `x ≤ y` and `y - s ≤ 1/2` add up to `r - s ≤ 1`: all three are tight
  have e1 : (r : ℚ) - x = 1 / 2 := le_antisymm hrx (by linarith only [hlt', h, hsy])
  have e2 : (s : ℚ) - y = -(1 / 2) := le_antisymm (by linarith only [hlt', h, hrx]) hsy
  have er := hr.2 (by rw [e1, abs_of_pos one_half_pos])
  have es := hs.2 (by rw [e2, abs_neg, abs_of_pos one_half_pos])
  have : (r : ℚ) ≤ s + 1 := by linarith only [e1, e2, h]
  have : r ≤ s + 1 := by exact_mod_cast this
  omega

theorem IsRNE.eq_of_near {x : ℚ} {r : ℕ} (hr : IsRNE x r) {k : ℕ} (hk : |x - k| < 1 / 2) :
    r = k := by
  have h : |(r : ℚ) - k| < 1 := calc
    |(r : ℚ) - k| ≤ |(r : ℚ) - x| + |x - k| := abs_sub_le _ _ _
    _ < 1 / 2 + 1 / 2 := add_lt_add_of_le_of_lt hr.1 hk
    _ = 1 := add_halves 1
  have : ((r : ℤ) - k) = 0 := Int.abs_lt_one_iff.mp (by exact_mod_cast h)
  omega

theorem IsRNE.eq_of_eq {x : ℚ} {r : ℕ} (hr : IsRNE x r) {k : ℕ} (hk : x = k) : r = k :=
  hr.eq_of_near (by rw [hk, sub_self, abs_zero]; norm_num)

theorem scaledRound_isRNE (N : ℕ) {D : ℕ} (hD : 0 < D) (e : ℤ) :
    IsRNE (N / D / 2 ^ e) (scaledRound N D e) := by
  unfold scaledRound
  split
  · rename_i he
    have h := roundHalfEven_isRNE (N * 2 ^ (-e).toNat) hD
    have e2 : ((2 : ℚ) ^ (-e).toNat) = 2 ^ (-e) := by
      rw [← zpow_natCast, Int.toNat_of_nonneg (by omega)]
    rwa [show ((N * 2 ^ (-e).toNat : ℕ) : ℚ) / D = N / D / 2 ^ e by
      push_cast; rw [e2, zpow_neg]; ring] at h
  · rename_i he
    have h := roundHalfEven_isRNE N (Nat.mul_pos hD (Nat.two_pow_pos e.toNat))
    have e2 : ((2 : ℚ) ^ e.toNat) = 2 ^ e := by
      rw [← zpow_natCast, Int.toNat_of_nonneg (by omega)]
    rwa [show (N : ℚ) / ((D * 2 ^ e.toNat : ℕ) : ℚ) = N / D / 2 ^ e by
      push_cast; rw [e2]; field_simp] at h

/-! ## The exponent -/

theorem ltPow2_iff (N : ℕ) {D : ℕ} (hD : 0 < D) (k : ℤ) :
    ltPow2 N D k = true ↔ (N : ℚ) / D < 2 ^ k := by
  have hDq : (0 : ℚ) < D := by exact_mod_cast hD
  unfold ltPow2
  split
  · obtain ⟨j, rfl⟩ := Int.eq_ofNat_of_zero_le ‹0 ≤ k›
    rw [div_lt_iff₀ hDq, zpow_natCast, Int.toNat_ofNat, decide_eq_true_iff, mul_comm]
    norm_cast
  · obtain ⟨j, rfl⟩ := Int.exists_eq_neg_ofNat (by omega : k ≤ 0)
    rw [neg_neg, Int.toNat_ofNat, zpow_neg, zpow_natCast, decide_eq_true_iff, inv_eq_one_div,
      div_lt_div_iff₀ hDq (by positivity), one_mul]
    norm_cast

/-- `floorLog2 N D` is `⌊log₂ (N / D)⌋`. -/
theorem floorLog2_spec {N D : ℕ} (hN : 0 < N) (hD : 0 < D) :
    (2 : ℚ) ^ floorLog2 N D ≤ N / D ∧ (N : ℚ) / D < 2 ^ (floorLog2 N D + 1) := by
  obtain ⟨hN1, hN2⟩ := log2_spec hN
  obtain ⟨hD1, hD2⟩ := log2_spec hD
  have hDq : (0 : ℚ) < D := by exact_mod_cast hD
  have qN1 : (2 : ℚ) ^ (log2 N : ℤ) ≤ N := by rw [zpow_natCast]; exact_mod_cast hN1
  have qN2 : (N : ℚ) < 2 ^ ((log2 N + 1 : ℕ) : ℤ) := by rw [zpow_natCast]; exact_mod_cast hN2
  have qD1 : (2 : ℚ) ^ (log2 D : ℤ) ≤ D := by rw [zpow_natCast]; exact_mod_cast hD1
  have qD2 : (D : ℚ) < 2 ^ ((log2 D + 1 : ℕ) : ℤ) := by rw [zpow_natCast]; exact_mod_cast hD2
  set k : ℤ := (log2 N : ℤ) - log2 D with hk
  have hup : (N : ℚ) / D < 2 ^ (k + 1) := by
    rw [div_lt_iff₀ hDq]
    calc (N : ℚ) < 2 ^ ((log2 N + 1 : ℕ) : ℤ) := qN2
      _ = 2 ^ (k + 1) * 2 ^ (log2 D : ℤ) := by rw [← zpow_add₀ two_ne_zero]; push_cast; ring_nf
      _ ≤ 2 ^ (k + 1) * D := mul_le_mul_of_nonneg_left qD1 (zpow_pos two_pos _).le
  have hlow : (2 : ℚ) ^ (k - 1) < N / D := by
    rw [lt_div_iff₀ hDq]
    calc (2 : ℚ) ^ (k - 1) * D < 2 ^ (k - 1) * 2 ^ ((log2 D + 1 : ℕ) : ℤ) :=
          mul_lt_mul_of_pos_left qD2 (zpow_pos two_pos _)
      _ = 2 ^ (log2 N : ℤ) := by rw [← zpow_add₀ two_ne_zero]; push_cast; ring_nf
      _ ≤ N := qN1
  unfold floorLog2
  simp only [← hk]
  split
  · rename_i h
    rw [ltPow2_iff N hD] at h
    exact ⟨hlow.le, by rwa [sub_add_cancel]⟩
  · rename_i h
    rw [ltPow2_iff N hD] at h
    exact ⟨le_of_not_lt h, hup⟩

/-- `e` is the exponent of the last significand digit of a positive `q` in binary64: `q` is
below `2^53 · 2^e`, and at least `2^52 · 2^e` unless `e` is the subnormal exponent. -/
def IsQuantum (q : ℚ) (e : ℤ) : Prop :=
  -1074 ≤ e ∧ q < 2 ^ (e + 53) ∧ (e = -1074 ∨ 2 ^ (e + 52) ≤ q)

theorem quantum_spec {N D : ℕ} (hN : 0 < N) (hD : 0 < D) : IsQuantum (N / D) (quantum N D) := by
  obtain ⟨h1, h2⟩ := floorLog2_spec hN hD
  unfold quantum
  refine ⟨le_max_right _ _, lt_of_lt_of_le h2 (zpow_le_zpow_right₀ (by norm_num) (by omega)), ?_⟩
  rcases le_total (floorLog2 N D - 52) (-1074) with h | h
  · exact .inl (max_eq_right h)
  · exact .inr (by rw [max_eq_left h]; simpa using h1)

theorem IsQuantum.mono {q q' : ℚ} {e e' : ℤ} (h : IsQuantum q e) (h' : IsQuantum q' e')
    (hq : q ≤ q') : e ≤ e' := by
  rcases h.2.2 with rfl | h2
  · exact h'.1
  · have : (2 : ℚ) ^ (e + 52) < 2 ^ (e' + 53) := lt_of_le_of_lt (h2.trans hq) h'.2.1
    have := (zpow_lt_zpow_iff_right₀ (by norm_num : (1 : ℚ) < 2)).mp this
    omega

/-! ## The rounded value -/

theorem isRNE_self (k : ℕ) : IsRNE k k := by simp [IsRNE]

theorem div_zpow_lt_iff {q : ℚ} {e : ℤ} (k : ℕ) : q / 2 ^ e < 2 ^ k ↔ q < 2 ^ (e + k) := by
  rw [div_lt_iff₀ (zpow_pos two_pos e), zpow_add₀ two_ne_zero, zpow_natCast, mul_comm]

theorem le_div_zpow_iff {q : ℚ} {e : ℤ} (k : ℕ) : 2 ^ k ≤ q / 2 ^ e ↔ 2 ^ (e + k) ≤ q := by
  rw [le_div_iff₀ (zpow_pos two_pos e), zpow_add₀ two_ne_zero, zpow_natCast, mul_comm]

/-- What `roundToF64` rounds `N / D` to before it looks at overflow: the significand
`scaledRound` at the exponent `quantum`. -/
def roundVal (N D : ℕ) : ℚ := (scaledRound N D (quantum N D) : ℚ) * 2 ^ quantum N D

theorem roundVal_nonneg (N D : ℕ) : 0 ≤ roundVal N D :=
  mul_nonneg (Nat.cast_nonneg _) (zpow_pos two_pos _).le

theorem scaledRound_zero {D : ℕ} (hD : 0 < D) (e : ℤ) : scaledRound 0 D e = 0 :=
  (scaledRound_isRNE 0 hD e).eq_of_eq (by simp)

theorem roundVal_zero {D : ℕ} (hD : 0 < D) : roundVal 0 D = 0 := by
  simp [roundVal, scaledRound_zero hD]

/-- The significand at the quantum: at most `2^53`, and at least `2^52` unless the quantum is
the subnormal one. -/
theorem scaledRound_quantum {N D : ℕ} (hN : 0 < N) (hD : 0 < D) :
    scaledRound N D (quantum N D) ≤ 2 ^ 53 ∧
      (quantum N D = -1074 ∨ 2 ^ 52 ≤ scaledRound N D (quantum N D)) := by
  have hq := quantum_spec hN hD
  have hr := scaledRound_isRNE N hD (quantum N D)
  refine ⟨hr.mono (by exact_mod_cast isRNE_self (2 ^ 53))
    (by exact_mod_cast ((div_zpow_lt_iff 53).mpr (by exact_mod_cast hq.2.1)).le), ?_⟩
  rcases hq.2.2 with h | h
  · exact .inl h
  · exact .inr ((by exact_mod_cast isRNE_self (2 ^ 52) : IsRNE ((2 ^ 52 : ℕ) : ℚ) _).mono hr
      (by exact_mod_cast (le_div_zpow_iff 52).mpr (by exact_mod_cast h)))

theorem decode_encodeFinite (neg : Bool) {m : ℕ} {e : ℤ} (hm : m < 2 ^ 53) (he : -1074 ≤ e)
    (he' : e ≤ 971) (hsub : m < 2 ^ 52 → e = -1074) :
    (encodeFinite neg m e).decode = .finite neg m e := by
  unfold encodeFinite
  split
  · rename_i h
    rw [decode_ofFields neg (by norm_num) h, hsub h]
    rfl
  · have h1 : (e + 1075).toNat < 2048 := by omega
    have h2 : m - 2 ^ 52 < 2 ^ 52 := by omega
    rw [decode_ofFields neg h1 h2, if_neg (by omega), if_neg (by omega),
      show 2 ^ 52 + (m - 2 ^ 52) = m by omega, show ((e + 1075).toNat : ℤ) - 1075 = e by omega]

/-- Below `2^1023`, `roundToF64` is finite, of the sign asked for, with the value `roundVal`. -/
theorem roundToF64_spec (neg : Bool) {N D : ℕ} (hD : 0 < D) (hq : (N : ℚ) / D < 2 ^ 1023) :
    ∃ m e, (roundToF64 neg N D).decode = .finite neg m e ∧ (m : ℚ) * 2 ^ e = roundVal N D := by
  unfold roundToF64
  split
  · subst N
    refine ⟨0, -1074, by rw [zero, decode_ofFields neg (by norm_num) (by norm_num)]; rfl, ?_⟩
    simp [roundVal_zero hD]
  · have hN : 0 < N := Nat.pos_of_ne_zero ‹_›
    obtain ⟨hm53, hnorm⟩ := scaledRound_quantum hN hD
    have hQ := quantum_spec hN hD
    have he0 := hQ.1
    have he : quantum N D ≤ 970 := by
      rcases hQ.2.2 with h | h
      · omega
      · have := (zpow_lt_zpow_iff_right₀ (by norm_num : (1 : ℚ) < 2)).mp
          (lt_of_le_of_lt h (by rw [zpow_ofNat]; exact hq :
            (N : ℚ) / D < 2 ^ (1023 : ℤ)))
        omega
    dsimp only
    split
    · rename_i hm
      rw [if_neg (by omega)]
      refine ⟨2 ^ 52, quantum N D + 1,
        decode_encodeFinite neg (by norm_num) (by omega) (by omega) (by norm_num), ?_⟩
      rw [roundVal, hm, zpow_add₀ two_ne_zero]
      push_cast
      ring
    · rw [if_neg (by omega)]
      refine ⟨_, _, decode_encodeFinite neg (by omega) hQ.1 (by omega) ?_, rfl⟩
      intro hlt
      exact hnorm.resolve_right (by omega)

/-- Rounding is within half a unit of the last place, so within `2^-53` relatively above
the subnormal range. -/
theorem abs_roundVal_sub_le {N D : ℕ} (hD : 0 < D) (h : (2 : ℚ) ^ (-1022 : ℤ) ≤ N / D) :
    |roundVal N D - N / D| ≤ N / D / 2 ^ 53 := by
  have hN : 0 < N := by
    rcases Nat.eq_zero_or_pos N with rfl | h0
    · rw [Nat.cast_zero, zero_div] at h
      exact absurd h (not_le.mpr (zpow_pos two_pos _))
    · exact h0
  have hQ := quantum_spec hN hD
  have hr := (scaledRound_isRNE N hD (quantum N D)).1
  set e := quantum N D
  have h52 : (2 : ℚ) ^ (e + 52) ≤ N / D := by
    rcases hQ.2.2 with he | he
    · rw [he]; exact h
    · exact he
  have hpos : (0 : ℚ) < 2 ^ e := zpow_pos two_pos e
  have key : roundVal N D - N / D = ((scaledRound N D e : ℚ) - N / D / 2 ^ e) * 2 ^ e := by
    rw [roundVal, sub_mul, div_mul_cancel₀ _ hpos.ne']
  rw [key, abs_mul, abs_of_pos hpos]
  calc |(scaledRound N D e : ℚ) - N / D / 2 ^ e| * 2 ^ e ≤ 1 / 2 * 2 ^ e :=
        mul_le_mul_of_nonneg_right hr hpos.le
    _ = 2 ^ (e + 52) / 2 ^ 53 := by rw [zpow_add₀ two_ne_zero]; ring
    _ ≤ N / D / 2 ^ 53 := div_le_div_of_nonneg_right h52 (by norm_num)

theorem roundVal_mono {N D N' D' : ℕ} (hD : 0 < D) (hD' : 0 < D')
    (h : (N : ℚ) / D ≤ N' / D') : roundVal N D ≤ roundVal N' D' := by
  rcases Nat.eq_zero_or_pos N with rfl | hN
  · rw [roundVal_zero hD]; exact roundVal_nonneg _ _
  have hN' : 0 < N' := by
    rcases Nat.eq_zero_or_pos N' with rfl | h'
    · rw [Nat.cast_zero, zero_div] at h
      exact absurd h (not_le.mpr (by positivity))
    · exact h'
  have hQ := quantum_spec hN hD
  have hQ' := quantum_spec hN' hD'
  have hle := hQ.mono hQ' h
  have he0 := hQ.1
  obtain ⟨hm, -⟩ := scaledRound_quantum hN hD
  obtain ⟨-, hm'⟩ := scaledRound_quantum hN' hD'
  rcases hle.lt_or_eq with hlt | heq
  · calc roundVal N D ≤ (2 ^ 53 : ℕ) * 2 ^ quantum N D :=
          mul_le_mul_of_nonneg_right (by exact_mod_cast hm) (zpow_pos two_pos _).le
      _ = 2 ^ (quantum N D + 53) := by rw [zpow_add₀ two_ne_zero]; push_cast; ring
      _ ≤ 2 ^ (quantum N' D' + 52) := zpow_le_zpow_right₀ (by norm_num) (by omega)
      _ = (2 ^ 52 : ℕ) * 2 ^ quantum N' D' := by rw [zpow_add₀ two_ne_zero]; push_cast; ring
      _ ≤ roundVal N' D' := mul_le_mul_of_nonneg_right
          (by exact_mod_cast hm'.resolve_left (by omega)) (zpow_pos two_pos _).le
  · have hs : scaledRound N D (quantum N D) ≤ scaledRound N' D' (quantum N D) :=
      (scaledRound_isRNE N hD _).mono (scaledRound_isRNE N' hD' _)
        (div_le_div_of_nonneg_right h (zpow_pos two_pos _).le)
    unfold roundVal
    rw [← heq]
    exact mul_le_mul_of_nonneg_right (by exact_mod_cast hs) (zpow_pos two_pos _).le

/-- A value `k · 2^f` with `k < 2^53` and `f` not below the subnormal exponent is rounded to
itself. -/
theorem roundVal_exact {N D : ℕ} (hD : 0 < D) {k : ℕ} {f : ℤ} (hk : k < 2 ^ 53)
    (hf : -1074 ≤ f) (h : (N : ℚ) / D = k * 2 ^ f) : roundVal N D = k * 2 ^ f := by
  rcases Nat.eq_zero_or_pos N with rfl | hN
  · rw [roundVal_zero hD]
    have : (k : ℚ) * 2 ^ f = 0 := by rw [← h]; simp
    exact this.symm
  have hQ := quantum_spec hN hD
  set e := quantum N D
  have hef : e ≤ f := by
    rcases hQ.2.2 with he | he
    · omega
    · have : (2 : ℚ) ^ (e + 52) < 2 ^ (f + 53) := by
        calc (2 : ℚ) ^ (e + 52) ≤ k * 2 ^ f := h ▸ he
          _ < (2 ^ 53 : ℕ) * 2 ^ f :=
            mul_lt_mul_of_pos_right (by exact_mod_cast hk) (zpow_pos two_pos _)
          _ = 2 ^ (f + 53) := by rw [zpow_add₀ two_ne_zero]; push_cast; ring
      have := (zpow_lt_zpow_iff_right₀ (by norm_num : (1 : ℚ) < 2)).mp this
      omega
  have hpow : (2 : ℚ) ^ f = 2 ^ (f - e).toNat * 2 ^ e := by
    rw [← zpow_natCast, ← zpow_add₀ two_ne_zero, Int.toNat_of_nonneg (by omega)]
    congr 1; ring
  have hm : scaledRound N D e = k * 2 ^ (f - e).toNat :=
    (scaledRound_isRNE N hD e).eq_of_eq (by
      rw [h, hpow, ← mul_assoc, mul_div_cancel_right₀ _ (zpow_pos two_pos e).ne']
      push_cast; ring)
  rw [roundVal, hm, hpow]
  push_cast
  ring

/-! ## Rounding a rational -/

theorem exists_nat_div {q : ℚ} (hq : 0 ≤ q) : ∃ N D : ℕ, 0 < D ∧ q = N / D :=
  ⟨q.num.toNat, q.den, q.den_pos, by
    rw [show ((q.num.toNat : ℕ) : ℚ) = (q.num : ℚ) by
      exact_mod_cast Int.toNat_of_nonneg (Rat.num_nonneg.mpr hq), Rat.num_div_den]⟩

/-- The binary64 nearest a nonnegative rational, ties to even, as `roundToF64` computes it
before it looks at overflow. -/
def roundQ (q : ℚ) : ℚ := roundVal q.num.toNat q.den

/-- `roundToF64` rounds the value `N / D`, not the pair. -/
theorem roundVal_eq_roundQ (N : ℕ) {D : ℕ} (hD : 0 < D) : roundVal N D = roundQ (N / D) := by
  have e : (((N : ℚ) / D).num.toNat : ℚ) / ((N : ℚ) / D).den = N / D := by
    rw [show ((((N : ℚ) / D).num.toNat : ℕ) : ℚ) = (((N : ℚ) / D).num : ℚ) by
      exact_mod_cast Int.toNat_of_nonneg (Rat.num_nonneg.mpr (by positivity)), Rat.num_div_den]
  exact le_antisymm (roundVal_mono hD (Rat.den_pos _) e.symm.le)
    (roundVal_mono (Rat.den_pos _) hD e.le)

theorem roundQ_zero : roundQ 0 = 0 := roundVal_zero one_pos

theorem roundQ_nonneg (q : ℚ) : 0 ≤ roundQ q := roundVal_nonneg _ _

theorem roundQ_mono {q q' : ℚ} (hq : 0 ≤ q) (h : q ≤ q') : roundQ q ≤ roundQ q' := by
  obtain ⟨N, D, hD, rfl⟩ := exists_nat_div hq
  obtain ⟨N', D', hD', rfl⟩ := exists_nat_div (hq.trans h)
  rw [← roundVal_eq_roundQ N hD, ← roundVal_eq_roundQ N' hD']
  exact roundVal_mono hD hD' h

theorem abs_roundQ_sub_le {q : ℚ} (h : (2 : ℚ) ^ (-1022 : ℤ) ≤ q) :
    |roundQ q - q| ≤ q / 2 ^ 53 := by
  obtain ⟨N, D, hD, rfl⟩ := exists_nat_div ((zpow_pos two_pos _).le.trans h)
  rw [← roundVal_eq_roundQ N hD]
  exact abs_roundVal_sub_le hD h

theorem roundQ_exact {k : ℕ} {f : ℤ} (hk : k < 2 ^ 53) (hf : -1074 ≤ f) :
    roundQ (k * 2 ^ f) = k * 2 ^ f := by
  obtain ⟨N, D, hD, h⟩ := exists_nat_div (by positivity : (0 : ℚ) ≤ k * 2 ^ f)
  have := roundVal_exact hD hk hf h.symm
  rwa [roundVal_eq_roundQ N hD, ← h] at this

/-- Round to nearest, ties to even, into binary64 before overflow, with the sign kept. -/
def fl (q : ℚ) : ℚ := if q < 0 then -roundQ (-q) else roundQ q

theorem fl_of_nonneg {q : ℚ} (h : 0 ≤ q) : fl q = roundQ q := if_neg (not_lt.mpr h)

theorem fl_zero : fl 0 = 0 := by rw [fl_of_nonneg le_rfl, roundQ_zero]

theorem fl_neg (q : ℚ) : fl (-q) = -fl q := by
  rcases lt_trichotomy q 0 with h | rfl | h
  · rw [fl_of_nonneg (by linarith), fl, if_pos h, neg_neg]
  · rw [neg_zero, fl_zero, neg_zero]
  · rw [fl, if_pos (by linarith), neg_neg, fl_of_nonneg h.le]

/-- A magnitude rounded and given the sign `neg` is the signed value rounded. -/
theorem sign_mul_roundQ (neg : Bool) {M : ℚ} (hM : 0 ≤ M) :
    (if neg then -1 else 1) * roundQ M = fl ((if neg then -1 else 1) * M) := by
  cases neg
  · simp [fl_of_nonneg hM]
  · simp [fl_neg, fl_of_nonneg hM]

theorem fl_mono {q q' : ℚ} (h : q ≤ q') : fl q ≤ fl q' := by
  rcases lt_or_le q 0 with hq | hq
  · rcases lt_or_le q' 0 with hq' | hq'
    · rw [fl, if_pos hq, fl, if_pos hq', neg_le_neg_iff]
      exact roundQ_mono (by linarith) (by linarith)
    · rw [fl, if_pos hq, fl_of_nonneg hq']
      linarith [roundQ_nonneg (-q), roundQ_nonneg q']
  · rw [fl_of_nonneg hq, fl_of_nonneg (hq.trans h)]
    exact roundQ_mono hq h

/-- An integer times a power of two is its own rounding when its significand fits. -/
theorem fl_exact {k : ℤ} {f : ℤ} (hk : k.natAbs < 2 ^ 53) (hf : -1074 ≤ f) :
    fl (k * 2 ^ f) = k * 2 ^ f := by
  rcases le_or_lt 0 k with h | h
  · lift k to ℕ using h
    rw [fl_of_nonneg (by positivity)]
    exact_mod_cast roundQ_exact hk hf
  · have e : (k : ℚ) * 2 ^ f = -((k.natAbs : ℕ) * 2 ^ f) := by
      rw [Nat.cast_natAbs, Int.cast_abs, abs_of_neg (by exact_mod_cast h)]; ring
    rw [e, fl_neg, fl_of_nonneg (by positivity), roundQ_exact hk hf]

theorem fl_intCast {z : ℤ} (hz : z.natAbs < 2 ^ 53) : fl z = z := by
  simpa using fl_exact hz (by norm_num : (-1074 : ℤ) ≤ 0)

/-- A bound that is its own rounding bounds the rounding. -/
theorem abs_fl_le {q B : ℚ} (hB : fl B = B) (h : |q| ≤ B) : |fl q| ≤ B := by
  obtain ⟨h1, h2⟩ := abs_le.mp h
  have l := fl_mono h1
  have u := fl_mono h2
  rw [fl_neg, hB] at l
  rw [hB] at u
  exact abs_le.mpr ⟨l, u⟩

theorem abs_fl_sub_le {q : ℚ} (h : (2 : ℚ) ^ (-1022 : ℤ) ≤ |q|) : |fl q - q| ≤ |q| / 2 ^ 53 := by
  rcases lt_or_le q 0 with hq | hq
  · rw [abs_of_neg hq] at h ⊢
    rw [fl, if_pos hq, show -roundQ (-q) - q = -(roundQ (-q) - -q) by ring, abs_neg]
    exact abs_roundQ_sub_le h
  · rw [abs_of_nonneg hq] at h ⊢
    rw [fl_of_nonneg hq]
    exact abs_roundQ_sub_le h

end NautilusCore.F64
