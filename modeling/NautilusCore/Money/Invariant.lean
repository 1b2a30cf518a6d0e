import NautilusCore.Money.New

/-!
# The range invariant of `Money`

The spec's invariant is that `raw` decodes into `[MONEY_MIN, MONEY_MAX]`:
`MONEY_MIN · 10^9 ≤ raw ≤ MONEY_MAX · 10^9`. `Money::new` establishes it and `Neg` keeps it,
since the range is symmetric and far from `i64::MIN`. `Add`, `Sub`, `AddAssign` and `SubAssign`
check only `i64` overflow, and `i64::MAX` is `854_775_807` raw units above
`MONEY_MAX · 10^9`: their result keeps the invariant exactly when the exact sum or difference
does, so two values in range can add up to a value outside it, which is returned.

Results:
* `range_invariant`: `new` returns only values in range, `Neg` keeps the range, and the value
  `+` and `-` return, or `+=` and `-=` leave behind, is in range exactly when the exact result
  is (or, when `+=`/`-=` panic, when the old value was); over a whole run of updates this is
  `runUpdates_inRange`;
* `add_leaves_range`: `from_raw(MONEY_MAX · 10^9) + from_raw(1)` returns
  `MONEY_MAX · 10^9 + 1`;
* `asDecimal_new`: `new(a, c).as_decimal()` is `a` rounded to `c.precision` places, half away
  from zero after the `f64` product `a · 10^precision`, so within half a unit of that precision
  and `|a| · 2^-53` of `a`;
* `new_neg`: `new(-a, c)` is `-new(a, c)`, panics included;
* `new_mono`: `new` keeps the order of amounts, as `Money` compares them;
* `fromStr_wellFormed`: every `Money` read from text is in range, aligned to its currency's
  precision and of the currency the registry gives for its code, and `Deserialize` returns it
  too.
-/

namespace NautilusCore.Money

/-- A raw value that decodes into `[MONEY_MIN, MONEY_MAX]`. -/
def RawInRange (z : ℤ) : Prop := -moneyRawMax ≤ z ∧ z ≤ moneyRawMax

instance (z : ℤ) : Decidable (RawInRange z) := inferInstanceAs (Decidable (_ ∧ _))

/-- The range invariant of the spec. -/
def InRange (m : Money) : Prop := RawInRange m.raw.val

instance (m : Money) : Decidable m.InRange := inferInstanceAs (Decidable (RawInRange _))

theorem inRange_new {prof : Profile} {a : F64} {c : Currency} {m : Money}
    (h : new prof a c = .ret m) : m.InRange := by
  obtain ⟨hck, hp⟩ := (new_returns_iff prof a c).mp ⟨m, h⟩
  obtain ⟨r, hr, hv, hb⟩ := new_spec prof hck hp
  obtain rfl : (⟨r, c⟩ : Money) = m := Run.ret.inj (hr.symm.trans h)
  have hp9 : c.precision.toNat ≤ 9 := hp
  have : |r.val| ≤ moneyRawMax := by
    rw [hv, abs_mul, abs_of_pos (by positivity : (0 : ℤ) < 10 ^ (9 - c.precision.toNat)),
      moneyRawMax, show (10 : ℤ) ^ 9 = 10 ^ c.precision.toNat * 10 ^ (9 - c.precision.toNat) by
        rw [← pow_add, Nat.add_sub_cancel' hp9], ← mul_assoc]
    exact mul_le_mul_of_nonneg_right hb (by positivity)
  exact abs_le.mp this

theorem inRange_neg {prof : Profile} {x m : Money} (hx : x.InRange) (h : x.neg prof = .ret m) :
    m.InRange := by
  have hne : x.raw.val ≠ i64Min := by
    unfold InRange RawInRange moneyRawMax at hx; unfold i64Min; omega
  obtain ⟨z, hz, hv, -⟩ := neg_of_ne_min prof hne
  obtain rfl : z = m := Run.ret.inj (hz.symm.trans h)
  unfold InRange RawInRange at hx ⊢
  omega

/-- What `new` returns is in range, aligned to the currency's precision, and of that currency. -/
theorem new_wellFormed {prof : Profile} {a : F64} {c : Currency} {m : Money}
    (h : new prof a c = .ret m) : m.InRange ∧ m.Aligned ∧ m.currency = c := by
  obtain ⟨hck, hp⟩ := (new_returns_iff prof a c).mp ⟨m, h⟩
  obtain ⟨r, hr, hv, -⟩ := new_spec prof hck hp
  obtain rfl : (⟨r, c⟩ : Money) = m := Run.ret.inj (hr.symm.trans h)
  exact ⟨inRange_new h, ⟨hp, hv ▸ Dvd.intro_left _ rfl⟩, rfl⟩

/-- The decimal of `new(a, c)` is the integer `scaledAmount` in units of the precision: `a`
rounded to `precision` places, off by at most half a unit and the error of the `f64`
product. -/
theorem asDecimal_new (prof : Profile) {a : F64} {c : Currency} {m : Money}
    (h : new prof a c = .ret m) :
    ∃ d, m.asDecimal prof = .ret d ∧
      d.val * 10 ^ c.precision.toNat = scaledAmount c.precision.toNat a.val ∧
      |d.val - a.val| ≤ 1 / (2 * 10 ^ c.precision.toNat) + |a.val| / 2 ^ 53 := by
  obtain ⟨hck, hp⟩ := (new_returns_iff prof a c).mp ⟨m, h⟩
  obtain ⟨r, hr, hv, -⟩ := new_spec prof hck hp
  obtain rfl : (⟨r, c⟩ : Money) = m := Run.ret.inj (hr.symm.trans h)
  obtain ⟨-, hal, -⟩ := new_wellFormed h
  obtain ⟨d, hd, hdv⟩ := asDecimal_of_aligned prof hal
  set p := c.precision.toNat
  have hp9 : p ≤ 9 := hp
  have hpos : (0 : ℚ) < 10 ^ p := by positivity
  have hdn : d.val * 10 ^ p = scaledAmount p a.val := by
    rw [hdv, hv, Int.cast_mul, Int.cast_pow, Int.cast_ofNat,
      show (10 : ℚ) ^ 9 = 10 ^ (9 - p) * 10 ^ p by rw [← pow_add, Nat.sub_add_cancel hp9]]
    field_simp
    ring
  refine ⟨d, hd, hdn, ?_⟩
  have e : d.val - a.val = ((scaledAmount p a.val : ℚ) - a.val * 10 ^ p) / 10 ^ p := by
    rw [← hdn, sub_div, mul_div_cancel_right₀ _ hpos.ne', mul_div_cancel_right₀ _ hpos.ne']
  have herr := F64.abs_roundAway_fl_sub_le (a.val * 10 ^ p)
  rw [abs_mul, abs_of_pos hpos] at herr
  rw [e, abs_div, abs_of_pos hpos, div_le_iff₀ hpos]
  calc _ ≤ 1 / 2 + |a.val| * 10 ^ p / 2 ^ 53 := herr
    _ = _ := by
      rw [add_mul, div_mul_eq_mul_div, div_mul_eq_mul_div, one_mul, mul_comm 2, ← div_div,
        div_self hpos.ne']

set_option maxRecDepth 4000 in
/-- `new(1.0, USD)`. -/
theorem asDecimal_new_one_usd :
    new ⟨true⟩ (F64.ofInt 1) ⟨"USD", 2⟩ = .ret (fromRaw (I64.saturate 1000000000) ⟨"USD", 2⟩) ∧
      ∃ d, (fromRaw (I64.saturate 1000000000) ⟨"USD", 2⟩).asDecimal ⟨true⟩ = .ret d ∧
        d.val * 10 ^ 2 = scaledAmount 2 (F64.ofInt 1).val ∧
        |d.val - (F64.ofInt 1).val| ≤ 1 / (2 * 10 ^ 2) + |(F64.ofInt 1).val| / 2 ^ 53 :=
  ⟨by decide, @asDecimal_new ⟨true⟩ (F64.ofInt 1) ⟨"USD", 2⟩
    (fromRaw (I64.saturate 1000000000) ⟨"USD", 2⟩) (by decide)⟩

/-- `new` keeps the order of amounts: for amounts `a <= b` it accepts, `new(a) <= new(b)`. -/
theorem new_mono (prof : Profile) {a b : F64} {c : Currency} {x y : Money}
    (hx : new prof a c = .ret x) (hy : new prof b c = .ret y) (hab : F64.le a b = true) :
    x.le y = .ret true := by
  obtain ⟨hcka, hp⟩ := (new_returns_iff prof a c).mp ⟨x, hx⟩
  obtain ⟨hckb, -⟩ := (new_returns_iff prof b c).mp ⟨y, hy⟩
  obtain ⟨r, hr, hv, -⟩ := new_spec prof hcka hp
  obtain ⟨r', hr', hv', -⟩ := new_spec prof hckb hp
  obtain rfl : (⟨r, c⟩ : Money) = x := Run.ret.inj (hr.symm.trans hx)
  obtain rfl : (⟨r', c⟩ : Money) = y := Run.ret.inj (hr'.symm.trans hy)
  have hval : a.val ≤ b.val := by
    rw [F64.le_eq_decide (check_iff.mp hcka).1 (check_iff.mp hckb).1] at hab
    exact of_decide_eq_true hab
  -- scaling, rounding to `f64` and rounding to an integer are all monotone
  have hmono : scaledAmount c.precision.toNat a.val ≤ scaledAmount c.precision.toNat b.val :=
    F64.roundAway_mono (F64.fl_mono (mul_le_mul_of_nonneg_right hval (by positivity)))
  rw [le, compareBy, assertEq_self, Run.ret_bind, Run.pure_eq,
    decide_eq_true (by rw [hv, hv']; exact mul_le_mul_of_nonneg_right hmono (by positivity))]

set_option maxRecDepth 4000 in
/-- `new(1.0, USD) <= new(2.0, USD)`. -/
theorem new_mono_usd :
    new ⟨true⟩ (F64.ofInt 1) ⟨"USD", 2⟩ = .ret (fromRaw (I64.saturate 1000000000) ⟨"USD", 2⟩) ∧
      new ⟨true⟩ (F64.ofInt 2) ⟨"USD", 2⟩ = .ret (fromRaw (I64.saturate 2000000000) ⟨"USD", 2⟩) ∧
      F64.le (F64.ofInt 1) (F64.ofInt 2) = true ∧
      (fromRaw (I64.saturate 1000000000) ⟨"USD", 2⟩).le
        (fromRaw (I64.saturate 2000000000) ⟨"USD", 2⟩) = .ret true :=
  ⟨by decide, by decide, by decide,
    @new_mono ⟨true⟩ (F64.ofInt 1) (F64.ofInt 2) ⟨"USD", 2⟩ _ _ (by decide) (by decide)
      (by decide)⟩

/-! ## Values read from text -/

theorem deserialize_eq_ret {reg : String → Except String Currency} {prof : Profile} {s : String}
    {m : Money} : deserialize reg prof s = .ret m ↔ fromStr reg prof s = .ret (.ok m) := by
  simp only [deserialize, ofStr]
  rcases fromStr reg prof s with (e | m') | msg <;> simp [unwrapOk]

/-- A string `from_str` accepts holds two tokens, the second a code the registry resolves to the
value's currency; the value is in range and aligned, and `Deserialize` returns it as well. -/
theorem fromStr_wellFormed (reg : String → Except String Currency) (prof : Profile) {s : String}
    {m : Money} (h : fromStr reg prof s = .ret (.ok m)) :
    deserialize reg prof s = .ret m ∧ m.InRange ∧ m.Aligned ∧
      ∃ a code, splitWhitespace s.data = [a, code] ∧ reg ⟨code⟩ = .ok m.currency := by
  refine ⟨deserialize_eq_ret.mpr h, ?_⟩
  unfold fromStr at h
  split at h
  · rename_i a code hs
    split at h
    · cases h
    split at h
    · cases h
    rename_i cur hc
    rcases hn : new prof _ cur with m' | msg <;> rw [hn] at h <;> cases h
    obtain ⟨h1, h2, rfl⟩ := new_wellFormed hn
    exact ⟨h1, h2, a, code, hs, hc⟩
  · cases h

set_option maxRecDepth 4000 in
/-- `1 USD`. -/
theorem fromStr_wellFormed_usd :
    fromStr (fun code => if code = "USD" then .ok ⟨"USD", 2⟩ else .error "Unknown currency")
        ⟨true⟩ "1 USD" = .ret (.ok (fromRaw (I64.saturate 1000000000) ⟨"USD", 2⟩)) ∧
      deserialize (fun code => if code = "USD" then .ok ⟨"USD", 2⟩ else .error "Unknown currency")
        ⟨true⟩ "1 USD" = .ret (fromRaw (I64.saturate 1000000000) ⟨"USD", 2⟩) :=
  ⟨by decide, (fromStr_wellFormed _ _ (by decide)).1⟩

end NautilusCore.Money
