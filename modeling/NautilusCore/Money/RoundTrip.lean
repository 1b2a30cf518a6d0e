import NautilusCore.Money.Invariant
import NautilusCore.Float.Decimal

/-!
# `from_str(to_string(new(a, c)))`

`to_string` prints `as_f64`, the raw value converted to `f64` and divided by `10^9` (two
roundings), with `precision` digits; `from_str` parses that text (a third rounding) and calls
`Money::new`, which scales by `10^precision` in `f64` (a fourth) and rounds to an integer.
Each rounding is off by at most `2^-53` relatively, so when `new` scaled the amount to an
integer `n` of at most `2^50` units, every value printed and parsed back stays within half a
unit of `n` and the round trip gives the same `Money`. Past that the round trip can fail, also
on amounts that `f64` holds exactly: `to_string` reads the value through the lossy `as_f64`
rather than from the raw integer.

Results:
* `fromStr_toString_new`: for `precision ≤ 9`, an amount in range with at most `2^50` units at
  that precision (every amount in range when `precision ≤ 5`), and a nonempty code without
  whitespace that the registry resolves to the currency, `from_str(new(a, c).to_string())` and
  `Deserialize` of the `Serialize` output return `new(a, c)`;
* `fromStr_toString_new_changes`: `2305886427.5 BTC`, exact in `f64` and in range, comes back
  from `from_str(to_string())` `320` raw units higher;
* `asF64_rounds`: below `2^53` raw units, `as_f64` is the `f64` nearest the decimal amount;
* `new_asF64`: `new(m.as_f64(), m.currency)` is `m` for every value `new` can return with at
  most `2^50` units at its precision.
-/

namespace NautilusCore.Money

/-! ## `as_f64` -/

theorem rounds_fixedScalar : F64.Rounds fixedScalar 1000000000 :=
  F64.rounds_ofInt 1000000000 (F64.lt_two_pow_1023 (by norm_num))

theorem val_fixedScalar : fixedScalar.val = 10 ^ 9 := by
  rw [rounds_fixedScalar.val_eq]; exact_mod_cast F64.fl_intCast (by norm_num)

/-- For a raw value below `2^53` in magnitude, `as_f64` is the `f64` nearest the decimal amount
`raw / 10^9`: the conversion of the raw value is exact and only the division rounds. -/
theorem asF64_rounds (m : Money) (h : m.raw.val.natAbs < 2 ^ 53) :
    F64.Rounds m.asF64 (m.raw.val / 10 ^ 9) := by
  have hz : |(m.raw.val : ℚ)| < 2 ^ 53 := by
    rw [← Int.cast_abs, Int.abs_eq_natAbs]; exact_mod_cast h
  have hr := F64.rounds_ofInt m.raw.val (F64.lt_two_pow_1023 (hz.trans (by norm_num)))
  have hv : (F64.ofInt m.raw.val).val = m.raw.val := by rw [hr.val_eq, F64.fl_intCast h]
  have hd := F64.rounds_div hr.finite rounds_fixedScalar.finite (by rw [val_fixedScalar]; norm_num)
    (F64.lt_two_pow_1023 (by
      rw [hv, val_fixedScalar, abs_div, abs_of_pos (by norm_num : (0 : ℚ) < 10 ^ 9)]
      exact (div_le_self (abs_nonneg _) (by norm_num)).trans_lt (hz.trans (by norm_num))))
  rwa [hv, val_fixedScalar] at hd

/-- `as_f64` is finite for every raw value: the converted raw value, rounded, over `10^9`,
rounded. -/
theorem rounds_asF64 (m : Money) : F64.Rounds m.asF64 (F64.fl m.raw.val / 10 ^ 9) := by
  have hr63 : |(m.raw.val : ℚ)| ≤ 2 ^ 63 := by
    have := m.raw.min_le; have := m.raw.le_max
    rw [abs_le]; unfold i64Min i64Max at *; constructor <;> exact_mod_cast (by omega)
  have hr1 := F64.rounds_ofInt m.raw.val (F64.lt_two_pow_1023 (by linarith))
  have h63 : F64.fl (2 ^ 63) = 2 ^ 63 := by
    have h := @F64.fl_exact 1 63 (by norm_num) (by norm_num)
    rwa [Int.cast_one, one_mul, zpow_ofNat] at h
  have hfl : |F64.fl m.raw.val| ≤ 2 ^ 63 := F64.abs_fl_le h63 hr63
  have hdiv := F64.rounds_div hr1.finite rounds_fixedScalar.finite
    (by rw [val_fixedScalar]; norm_num)
    (F64.lt_two_pow_1023 (by
      rw [hr1.val_eq, val_fixedScalar, abs_div, abs_of_pos (by norm_num : (0 : ℚ) < 10 ^ 9)]
      calc _ ≤ (2 : ℚ) ^ 63 / 10 ^ 9 := div_le_div_of_nonneg_right hfl (by norm_num)
        _ < 2 ^ 64 := by norm_num))
  rwa [hr1.val_eq, val_fixedScalar] at hdiv

/-- `123.45` units of a currency. -/
theorem asF64_rounds_123_45 :
    F64.Rounds (fromRaw (I64.saturate 123450000000) ⟨"USD", 2⟩).asF64 (123450000000 / 10 ^ 9) :=
  asF64_rounds _ (by decide)

/-! ## `as_f64` then `new` -/

/-- `Money::new(m.as_f64(), m.currency)` gives `m` back for every value `new` can return with at
most `2^50` units at its currency's precision (every such value when `precision ≤ 5`): the
conversion, the division by `10^9`, the scaling by `10^precision` and the rounding to an
integer stay within half a unit. -/
theorem new_asF64 (prof : Profile) {m : Money} (hin : m.InRange) (hal : m.Aligned)
    (hsmall : m.currency.precision.toNat ≤ 5 ∨
      |m.raw.val| ≤ 2 ^ 50 * 10 ^ (9 - m.currency.precision.toNat)) :
    new prof m.asF64 m.currency = .ret m := by
  obtain ⟨hp9, k, hk⟩ := hal
  set p := m.currency.precision.toNat
  have hpos : (0 : ℤ) < 10 ^ (9 - p) := by positivity
  have hin' : |m.raw.val| ≤ 9223372036 * 10 ^ 9 := abs_le.mpr hin
  -- the raw value counts `k` units of the precision, and `|k| ≤ 2^50`
  have habs : |m.raw.val| = 10 ^ (9 - p) * |k| := by rw [hk, abs_mul, abs_of_pos hpos]
  have hk50 : |k| ≤ 2 ^ 50 := by
    rcases hsmall with h5 | h
    · have : 10 ^ (9 - p) * |k| ≤ 10 ^ (9 - p) * (9223372036 * 10 ^ p) := by
        rwa [← habs, mul_left_comm, ← pow_add, Nat.sub_add_cancel hp9]
      calc |k| ≤ 9223372036 * 10 ^ p := le_of_mul_le_mul_left this hpos
        _ ≤ 9223372036 * 10 ^ 5 :=
          mul_le_mul_of_nonneg_left (pow_le_pow_right₀ (by norm_num) h5) (by norm_num)
        _ ≤ 2 ^ 50 := by norm_num
    · exact le_of_mul_le_mul_left (by rwa [← habs, mul_comm]) hpos
  -- `as_f64` is `fl (fl raw / 10^9)`, within the range `new` checks
  have hinQ : |(m.raw.val : ℚ)| ≤ 9223372036 * 10 ^ 9 := by exact_mod_cast hin'
  have hd := rounds_asF64 m
  have hq : |F64.fl m.raw.val / 10 ^ 9| ≤ 9223372036 := by
    rw [abs_div, abs_of_pos (by norm_num : (0 : ℚ) < 10 ^ 9), div_le_iff₀ (by norm_num)]
    exact F64.abs_fl_le (fl_moneyMax_mul le_rfl) hinQ
  have hck : (F64.le moneyMin m.asF64 && F64.le m.asF64 moneyMax) = true :=
    check_iff.mpr ⟨hd.finite, by
      rw [hd.val_eq]
      exact F64.abs_fl_le (by exact_mod_cast @F64.fl_intCast 9223372036 (by norm_num)) hq⟩
  obtain ⟨r, hnew, hv, -⟩ := new_spec prof hck hp9
  rw [hnew]
  congr 1
  refine eq_iff_raw_val.mpr ⟨?_, rfl⟩
  have hnear := F64.near_of_three_roundings (R := m.raw.val) (P := 10 ^ p) (n := k)
    (by norm_num) le_rfl (one_le_pow₀ (by norm_num))
    (by rw [hk, show (10 : ℚ) ^ 9 = 10 ^ (9 - p) * 10 ^ p by
          rw [← pow_add, Nat.sub_add_cancel hp9]]; push_cast; field_simp; ring)
    (by exact_mod_cast hk50)
    (fun hk0 => by exact_mod_cast Int.one_le_abs (by rw [hk]; exact mul_ne_zero hpos.ne' hk0))
  rw [hv, scaledAmount, hd.val_eq, F64.roundAway_eq_of_near hnear, hk, mul_comm]

/-- `123.45` dollars survive `as_f64` and `new`. -/
theorem new_asF64_123_45 :
    new ⟨true⟩ (fromRaw (I64.saturate 123450000000) ⟨"USD", 2⟩).asF64 ⟨"USD", 2⟩ =
      .ret (fromRaw (I64.saturate 123450000000) ⟨"USD", 2⟩) :=
  new_asF64 ⟨true⟩ (by decide) (by decide) (.inl (by decide))

/-! ## The text of `to_string` -/

/-- The text `to_string` writes for a raw value `n · 10^(9 - p)` with `|n| ≤ 2^50`: `|n|` at `p`
places behind a sign that gives `n` back. -/
theorem toString_of_raw {m : Money} {n : ℤ} (hp : m.currency.precision ≤ fixedPrecision)
    (hraw : m.raw.val = n * 10 ^ (9 - m.currency.precision.toNat)) (hn : |(n : ℚ)| ≤ 2 ^ 50) :
    ∃ neg : Bool, m.toString = ⟨(if neg then ['-'] else []) ++
        fixedDigits n.natAbs m.currency.precision.toNat⟩ ++ " " ++ m.currency.code ∧
      (if neg then -1 else 1) * ((n.natAbs : ℕ) : ℚ) = n := by
  set p := m.currency.precision.toNat
  have hp9 : p ≤ 9 := hp
  have hr63 : |(m.raw.val : ℚ)| ≤ 2 ^ 63 := by
    have := m.raw.min_le; have := m.raw.le_max
    rw [abs_le]; unfold i64Min i64Max at *; constructor <;> exact_mod_cast (by omega)
  have hr1 := F64.rounds_ofInt m.raw.val (F64.lt_two_pow_1023 (by linarith))
  have h63 : F64.fl (2 ^ 63) = 2 ^ 63 := by
    have h := @F64.fl_exact 1 63 (by norm_num) (by norm_num)
    rwa [Int.cast_one, one_mul, zpow_ofNat] at h
  have hfl : |F64.fl m.raw.val| ≤ 2 ^ 63 := F64.abs_fl_le h63 hr63
  have hdiv := F64.rounds_div hr1.finite rounds_fixedScalar.finite
    (by rw [val_fixedScalar]; norm_num)
    (F64.lt_two_pow_1023 (by
      rw [hr1.val_eq, val_fixedScalar, abs_div, abs_of_pos (by norm_num : (0 : ℚ) < 10 ^ 9)]
      calc _ ≤ (2 : ℚ) ^ 63 / 10 ^ 9 := div_le_div_of_nonneg_right hfl (by norm_num)
        _ < 2 ^ 64 := by norm_num))
  have hnear : |m.asF64.val * 10 ^ p - n| < 1 / 2 := by
    rw [asF64, fixedI64ToF64, hdiv.val_eq, hr1.val_eq, val_fixedScalar, div_eq_mul_one_div]
    refine F64.near_of_two_roundings (by positivity) ?_ hn (fun hn0 => ?_)
      (by rw [abs_of_pos (by norm_num)])
    · rw [hraw]; push_cast
      rw [show (10 : ℚ) ^ 9 = 10 ^ (9 - p) * 10 ^ p by rw [← pow_add, Nat.sub_add_cancel hp9]]
      field_simp
      ring
    · have : (1 : ℤ) ≤ |m.raw.val| := by
        rw [hraw, abs_mul]
        exact one_le_mul_of_one_le_of_one_le (Int.one_le_abs hn0)
          (by rw [abs_of_pos (by positivity)]; exact one_le_pow₀ (by norm_num))
      calc (1 : ℚ) / 10 ^ 9 ≤ 1 := by norm_num
        _ ≤ |(m.raw.val : ℚ)| := by exact_mod_cast this
  obtain ⟨neg, s, e, hdec⟩ := hdiv.finite
  refine ⟨neg, ?_, sign_mul_natAbs_of_near hdec (by positivity) hnear⟩
  show (⟨F64.fmtFixed p ((F64.ofInt m.raw.val).div fixedScalar)⟩ : String) ++ " " ++
    m.currency.code = _
  rw [fmtFixed_of_near hdec p hnear]

/-- `from_str` on the signed fixed-point text of `N` and a code the registry resolves is
`Money::new` of the parsed value. -/
theorem fromStr_fixedDigits (reg : String → Except String Currency) (prof : Profile)
    (neg : Bool) (N p : ℕ) {c : Currency} (hcode : c.code.data ≠ [])
    (hws : ∀ ch ∈ c.code.data, isWhitespace ch = false) (hreg : reg c.code = .ok c) :
    fromStr reg prof (⟨(if neg then ['-'] else []) ++ fixedDigits N p⟩ ++ " " ++ c.code) =
      Except.ok <$> new prof (decimalToF64 neg N (-(p : ℤ))) c := by
  set T := (if neg then ['-'] else []) ++ fixedDigits N p
  have hT : ∀ ch ∈ T, ch = '-' ∨ ch.isDigit = true ∨ ch = '.' := by
    intro ch hch
    rcases List.mem_append.mp hch with h | h
    · exact .inl (by split at h <;> simp_all)
    · exact .inr (mem_fixedDigits h)
  have hTws : ∀ ch ∈ T, isWhitespace ch = false := fun ch hch => by
    rcases hT ch hch with rfl | h | rfl
    · rfl
    · exact isWhitespace_of_isDigit h
    · rfl
  have hTne : T ≠ [] := by
    obtain ⟨d, rest, hd, -⟩ := fixedDigits_cons N p
    simp [T, hd]
  have hT_ : removeChar '_' T = T := List.filter_eq_self.mpr fun ch hch => by
    rcases hT ch hch with rfl | h | rfl
    · rfl
    · exact bne_iff_ne.mpr (fun e => by rw [e] at h; exact absurd h (by decide))
    · rfl
  refine fromStr_of_tokens reg prof ?_ (by rw [hT_]; exact parseF64_fixedDigits neg N p) hreg
  rw [splitWhitespace_amount_code hTws hTne, splitWhitespace_of_forall hws hcode]

/-- `Money::new` of the parsed text of an integer `n` of at most `2^50` units gives the raw
value `n · 10^(9 - p)` back. -/
theorem new_decimalToF64 (prof : Profile) {c : Currency} (hp : c.precision ≤ fixedPrecision)
    {neg : Bool} {n : ℤ} (hsign : (if neg then -1 else 1) * ((n.natAbs : ℕ) : ℚ) = n)
    (hn : |(n : ℚ)| ≤ 2 ^ 50) (hmax : |n| ≤ 9223372036 * 10 ^ c.precision.toNat) :
    ∃ r : I64, new prof (decimalToF64 neg n.natAbs (-(c.precision.toNat : ℤ))) c =
      .ret ⟨r, c⟩ ∧ r.val = n * 10 ^ (9 - c.precision.toNat) := by
  set p := c.precision.toNat
  have hp9 : p ≤ 9 := hp
  have h10 : (0 : ℚ) < 10 ^ p := by positivity
  have hb := rounds_decimalToF64 neg n.natAbs p (by
    rw [div_lt_iff₀ h10]
    calc ((n.natAbs : ℕ) : ℚ) = |(n : ℚ)| := by rw [Nat.cast_natAbs, Int.cast_abs]
      _ ≤ 2 ^ 50 := hn
      _ < 2 ^ 64 * 1 := by norm_num
      _ ≤ 2 ^ 64 * 10 ^ p :=
        mul_le_mul_of_nonneg_left (one_le_pow₀ (by norm_num)) (by norm_num))
  rw [mul_div_assoc', hsign] at hb
  have hq : |(n : ℚ) / 10 ^ p| ≤ 9223372036 := by
    rw [abs_div, abs_of_pos h10, div_le_iff₀ h10]
    exact_mod_cast hmax
  have hbv : |(decimalToF64 neg n.natAbs (-(p : ℤ))).val| ≤ 9223372036 := by
    rw [hb.val_eq]
    exact F64.abs_fl_le (by exact_mod_cast @F64.fl_intCast 9223372036 (by norm_num)) hq
  obtain ⟨r, hr, hv, -⟩ := new_spec prof (check_iff.mpr ⟨hb.finite, hbv⟩) hp
  refine ⟨r, hr, ?_⟩
  rw [hv]
  congr 1
  apply F64.roundAway_eq_of_near
  rw [hb.val_eq, ← mul_one (F64.fl _)]
  refine F64.near_of_two_roundings one_pos (by field_simp) hn (fun hn0 => ?_) ?_
  · rw [abs_div, abs_of_pos h10]
    calc (1 : ℚ) / 10 ^ 9 ≤ 1 / 10 ^ p :=
          div_le_div_of_nonneg_left zero_le_one h10 (pow_le_pow_right₀ (by norm_num) hp9)
      _ ≤ |(n : ℚ)| / 10 ^ p :=
          div_le_div_of_nonneg_right (by exact_mod_cast Int.one_le_abs hn0) h10.le
  · rw [abs_of_pos h10]
    exact le_trans (by norm_num) (one_le_pow₀ (by norm_num : (1 : ℚ) ≤ 10))

/-! ## The round trip -/

theorem fromStr_toString_new (reg : String → Except String Currency) (prof : Profile)
    {a : F64} {c : Currency} (hp : c.precision ≤ fixedPrecision)
    (hck : (F64.le moneyMin a && F64.le a moneyMax) = true)
    (hsmall : c.precision.toNat ≤ 5 ∨ |a.val| * 10 ^ c.precision.toNat ≤ 2 ^ 50)
    (hcode : c.code.data ≠ []) (hws : ∀ ch ∈ c.code.data, isWhitespace ch = false)
    (hreg : reg c.code = .ok c) :
    ∃ m, new prof a c = .ret m ∧ fromStr reg prof m.toString = .ret (.ok m) ∧
      deserialize reg prof m.serialize = .ret m := by
  obtain ⟨r, hnew, hr, hbound⟩ := new_spec prof hck hp
  set p := c.precision.toNat
  set n := scaledAmount p a.val
  have hn : |(n : ℚ)| ≤ 2 ^ 50 := by
    rcases hsmall with h5 | hsm
    · have : |n| ≤ 2 ^ 50 := calc
        |n| ≤ 9223372036 * 10 ^ p := hbound
        _ ≤ 9223372036 * 10 ^ 5 :=
          mul_le_mul_of_nonneg_left (pow_le_pow_right₀ (by norm_num) h5) (by norm_num)
        _ ≤ 2 ^ 50 := by norm_num
      exact_mod_cast this
    · have h : |F64.fl (a.val * 10 ^ p)| ≤ ((2 ^ 50 : ℤ) : ℚ) :=
        F64.abs_fl_le (F64.fl_intCast (by norm_num))
          (by rw [abs_mul, abs_of_pos (by positivity : (0 : ℚ) < 10 ^ p)]; push_cast; exact hsm)
      have : |n| ≤ 2 ^ 50 := F64.abs_roundAway_le h
      exact_mod_cast this
  obtain ⟨neg, htxt, hsign⟩ := @toString_of_raw ⟨r, c⟩ n hp hr hn
  have hfs : fromStr reg prof (Money.toString ⟨r, c⟩) = .ret (.ok ⟨r, c⟩) := by
    obtain ⟨r', hr', hv'⟩ := new_decimalToF64 prof hp hsign hn hbound
    rw [htxt]
    rw [fromStr_fixedDigits reg prof neg _ _ hcode hws hreg, hr', I64.ext_val (hv'.trans hr.symm)]
    rfl
  exact ⟨⟨r, c⟩, hnew, hfs, by simp [deserialize, ofStr, serialize, hfs, unwrapOk]⟩

/-- One dollar round-trips. -/
theorem fromStr_toString_new_one_usd :
    ∃ m, new ⟨true⟩ (F64.ofInt 1) ⟨"USD", 2⟩ = .ret m ∧
      fromStr (fun code => if code = "USD" then .ok ⟨"USD", 2⟩ else .error "Unknown currency")
        ⟨true⟩ m.toString = .ret (.ok m) ∧
      deserialize (fun code => if code = "USD" then .ok ⟨"USD", 2⟩ else .error
        "Unknown currency") ⟨true⟩ m.serialize = .ret m :=
  fromStr_toString_new _ _ (by decide) (by decide) (.inl (by decide)) (by decide) (by decide) rfl

set_option maxRecDepth 20000 in
/-- At precision `8`, the amount `2305886427.5`, which `f64` holds exactly and which is in range,
is stored as the raw value `2305886427500000000`. `to_string` prints `as_f64`, whose conversion
of that raw value to `f64` rounds, so the text is `2305886427.50000048 BTC`, and `from_str` reads
it back as `2305886427500000320`. -/
theorem fromStr_toString_new_changes :
    (decimalToF64 false 23058864275 (-1)).val = 23058864275 / 10 ∧
      new ⟨true⟩ (decimalToF64 false 23058864275 (-1)) ⟨"BTC", 8⟩ =
        .ret ⟨I64.saturate 2305886427500000000, ⟨"BTC", 8⟩⟩ ∧
      Money.toString ⟨I64.saturate 2305886427500000000, ⟨"BTC", 8⟩⟩ =
        "2305886427.50000048 BTC" ∧
      fromStr (fun code => if code = "BTC" then .ok ⟨"BTC", 8⟩ else .error "Unknown currency")
        ⟨true⟩ "2305886427.50000048 BTC" =
          .ret (.ok ⟨I64.saturate 2305886427500000320, ⟨"BTC", 8⟩⟩) := by
  refine ⟨?_, by decide, by decide, by decide⟩
  rw [F64.val_of_decode (by decide : _ = .finite false (4611772855 * 2 ^ 20) (-21))]
  norm_num

end NautilusCore.Money
