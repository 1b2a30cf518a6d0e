import NautilusCore.Money.Basic

/-!
# `Money` arithmetic: checked, never wrapping

Spec lemmas for the shared body `combine` of `Add`, `Sub`, `AddAssign` and `SubAssign`, and
for `Neg`, and what follows from them.

Results:
* `add_sub_exact`: `x + y` returns exactly when the currencies agree and the exact sum of the
  raw values is an `i64`, and then returns that sum; the same for `x - y`; `x += y` and
  `x -= y` do what `x + y` and `x - y` do and leave `x` as it was when they panic.
* `add_neg_self`: `x + (-x)` is `Money::from_raw(0, x.currency)` for every raw value but
  `i64::MIN`; there it panics in both build profiles (`add_neg_min_panics`). Without overflow
  checks the panic comes from `Add`: `Neg` negates `i64::MIN` with the plain `-`, which wraps
  silently, unlike the checked operators (`asDecimal_neg_min_release`).
* `neg_neg_eq`: negating twice gives the value back, `i64::MIN` included when overflow is not
  checked; with overflow checks `i64::MIN` panics;
* `add_comm_of_currency`: on one currency `x + y` is `y + x`, overflow panic included;
* `sub_eq_ret_iff_add_neg`: `x - y` returns what `x + (-y)` returns whenever `-y` does not
  overflow.
-/

namespace NautilusCore

namespace I64

theorem ofInt?_isSome_iff {z : ℤ} : (∃ r, ofInt? z = some r) ↔ i64Min ≤ z ∧ z ≤ i64Max := by
  constructor
  · rintro ⟨r, hr⟩
    rw [ofInt?_eq_some] at hr
    exact hr ▸ ⟨r.min_le, r.le_max⟩
  · rintro ⟨h1, h2⟩
    exact ⟨⟨z, h1, h2⟩, ofInt?_eq_some.mpr rfl⟩

theorem neg_of_ne_min (prof : Profile) {a : I64} (h : a.val ≠ i64Min) :
    ∃ r : I64, neg prof a = .ret r ∧ r.val = -a.val := by
  have := a.min_le
  have := a.le_max
  refine ⟨⟨-a.val, ?_, ?_⟩, arith_of_mem prof _ _ _, rfl⟩ <;> unfold i64Min i64Max at * <;> omega

theorem neg_min (prof : Profile) :
    neg prof min =
      if prof.overflowChecks then .panic "attempt to negate with overflow" else .ret min := by
  have hw : wrap (-i64Min) = min := ext_val (by simp [wrap, min, i64Min, Int.bmod_def])
  have hn : ofInt? (-i64Min) = none := ofInt?_eq_none.mpr (by norm_num [i64Min, i64Max])
  simp [neg, arith, min, hn, hw]

end I64

namespace Money

/-! ## The shared body of `Add`, `Sub`, `AddAssign` and `SubAssign` -/

theorem combine_eq (op : I64 → I64 → Option I64) (mismatch overflow : String) (x y : Money) :
    combine op mismatch overflow x y =
      if x.currency = y.currency then
        match op x.raw y.raw with
        | some r => .ret ⟨r, x.currency⟩
        | none => .panic overflow
      else .panic (assertEqMsg (some mismatch)) := by
  unfold combine assertEq
  split_ifs <;> cases op x.raw y.raw <;> rfl

theorem combine_eq_ret {op : I64 → I64 → Option I64} {mismatch overflow : String}
    {x y z : Money} :
    combine op mismatch overflow x y = .ret z ↔
      x.currency = y.currency ∧ op x.raw y.raw = some z.raw ∧ z.currency = x.currency := by
  obtain ⟨r, c⟩ := z
  rw [combine_eq]
  split_ifs with h
  · cases op x.raw y.raw <;> simp [h, eq_comm]
  · simp [h]

theorem combine_returns {op : I64 → I64 → Option I64} {mismatch overflow : String}
    {x y : Money} :
    (∃ z, combine op mismatch overflow x y = .ret z) ↔
      x.currency = y.currency ∧ ∃ r, op x.raw y.raw = some r := by
  simp only [combine_eq_ret]
  constructor
  · rintro ⟨z, h, hr, -⟩; exact ⟨h, z.raw, hr⟩
  · rintro ⟨h, r, hr⟩; exact ⟨⟨r, x.currency⟩, h, hr, rfl⟩

theorem assign_eq (x : Money) (body : Run Money) :
    x.assign body = match body with
      | .ret v => (.ret (), v)
      | .panic m => (.panic m, x) := rfl

theorem add_eq_ret (x y z : Money) :
    x.add y = .ret z ↔ x.currency = y.currency ∧ z.raw.val = x.raw.val + y.raw.val ∧
      z.currency = x.currency := by
  simp [add, combine_eq_ret, I64.checkedAdd, I64.ofInt?_eq_some]

theorem sub_eq_ret (x y z : Money) :
    x.sub y = .ret z ↔ x.currency = y.currency ∧ z.raw.val = x.raw.val - y.raw.val ∧
      z.currency = x.currency := by
  simp [sub, combine_eq_ret, I64.checkedSub, I64.ofInt?_eq_some]

theorem add_returns (x y : Money) :
    (∃ z, x.add y = .ret z) ↔ x.currency = y.currency ∧
      i64Min ≤ x.raw.val + y.raw.val ∧ x.raw.val + y.raw.val ≤ i64Max := by
  rw [add, combine_returns, I64.checkedAdd, I64.ofInt?_isSome_iff]

theorem sub_returns (x y : Money) :
    (∃ z, x.sub y = .ret z) ↔ x.currency = y.currency ∧
      i64Min ≤ x.raw.val - y.raw.val ∧ x.raw.val - y.raw.val ≤ i64Max := by
  rw [sub, combine_returns, I64.checkedSub, I64.ofInt?_isSome_iff]

/-- `+` and `-` return exactly on matching currencies and an exact result in `i64`, and return
that result; `+=` and `-=` write it back, and a panic leaves the target as it was. -/
theorem add_sub_exact (x y : Money) :
    (∀ z, x.add y = .ret z ↔ x.currency = y.currency ∧ z.raw.val = x.raw.val + y.raw.val ∧
      z.currency = x.currency) ∧
    ((∃ z, x.add y = .ret z) ↔ x.currency = y.currency ∧
      i64Min ≤ x.raw.val + y.raw.val ∧ x.raw.val + y.raw.val ≤ i64Max) ∧
    (∀ z, x.sub y = .ret z ↔ x.currency = y.currency ∧ z.raw.val = x.raw.val - y.raw.val ∧
      z.currency = x.currency) ∧
    ((∃ z, x.sub y = .ret z) ↔ x.currency = y.currency ∧
      i64Min ≤ x.raw.val - y.raw.val ∧ x.raw.val - y.raw.val ≤ i64Max) ∧
    x.addAssign y = (match x.add y with
      | .ret z => (.ret (), z)
      | .panic m => (.panic m, x)) ∧
    x.subAssign y = (match x.sub y with
      | .ret z => (.ret (), z)
      | .panic m => (.panic m, x)) :=
  ⟨add_eq_ret x y, add_returns x y, sub_eq_ret x y, sub_returns x y, rfl, rfl⟩

/-! ## `Neg` -/

theorem neg_of_ne_min (prof : Profile) {x : Money} (h : x.raw.val ≠ i64Min) :
    ∃ z, x.neg prof = .ret z ∧ z.raw.val = -x.raw.val ∧ z.currency = x.currency := by
  obtain ⟨r, hr, hv⟩ := I64.neg_of_ne_min prof h
  exact ⟨⟨r, x.currency⟩, by simp [neg, hr], hv, rfl⟩

/-- `x + (-x)` is zero except at `i64::MIN`, where it panics in both profiles. -/
theorem add_neg_self (prof : Profile) (x : Money) :
    (x.neg prof >>= x.add) =
      if x.raw.val = i64Min then
        .panic (if prof.overflowChecks then "attempt to negate with overflow"
          else "Overflow occurred when adding `Money`")
      else .ret (fromRaw I64.zero x.currency) := by
  by_cases hmin : x.raw.val = i64Min
  · rw [if_pos hmin]
    obtain ⟨r, c⟩ := x
    obtain rfl : r = I64.min := I64.ext_val hmin
    have hover : I64.checkedAdd I64.min I64.min = none :=
      I64.ofInt?_eq_none.mpr (by norm_num [I64.min, i64Min, i64Max])
    cases h : prof.overflowChecks <;>
      simp [neg, I64.neg_min, h, add, combine_eq, hover]
  · rw [if_neg hmin]
    obtain ⟨z, hz, hv, hc⟩ := neg_of_ne_min prof hmin
    rw [hz, Run.ret_bind, add_eq_ret]
    exact ⟨hc.symm, by simp [fromRaw, I64.zero, hv], rfl⟩

/-- At `i64::MIN`, `x + (-x)` panics whether overflow is checked or not. -/
theorem add_neg_min_panics :
    ((fromRaw I64.min ⟨"USD", 2⟩).neg ⟨true⟩ >>= (fromRaw I64.min ⟨"USD", 2⟩).add).IsPanic ∧
      ((fromRaw I64.min ⟨"USD", 2⟩).neg ⟨false⟩ >>= (fromRaw I64.min ⟨"USD", 2⟩).add).IsPanic := by
  decide

/-- Negating twice gives the value back; at `i64::MIN` only without overflow checks, where the
first negation wraps to `i64::MIN` itself; with them it panics there. -/
theorem neg_neg_eq (prof : Profile) (x : Money) :
    (x.neg prof >>= Money.neg prof) =
      if prof.overflowChecks ∧ x.raw.val = i64Min then .panic "attempt to negate with overflow"
      else .ret x := by
  by_cases hmin : x.raw.val = i64Min
  · obtain ⟨r, c⟩ := x
    obtain rfl : r = I64.min := I64.ext_val hmin
    cases h : prof.overflowChecks <;> simp [neg, I64.neg_min, h, show I64.min.val = i64Min from rfl]
  · obtain ⟨z, hz, hv, hc⟩ := neg_of_ne_min prof hmin
    have hz' : z.raw.val ≠ i64Min := by
      have := x.raw.le_max
      unfold i64Max at this; unfold i64Min at hmin ⊢; omega
    obtain ⟨w, hw, hwv, hwc⟩ := neg_of_ne_min prof hz'
    rw [if_neg (fun h => hmin h.2), hz, Run.ret_bind, hw]
    exact congrArg _ (eq_iff_raw_val.mpr ⟨by rw [hwv, hv, neg_neg], hwc.trans hc⟩)

/-- On one currency `x + y` and `y + x` agree: the same sum, or the same overflow panic. -/
theorem add_comm_of_currency {x y : Money} (h : x.currency = y.currency) : x.add y = y.add x := by
  simp only [add, combine_eq, h, if_true, I64.checkedAdd, add_comm x.raw.val]

/-- One and two dollars, in either order. -/
theorem add_comm_usd :
    ∃ x y : Money, x.currency = y.currency ∧ x ≠ y ∧ x.add y = y.add x :=
  ⟨fromRaw (I64.saturate 1000000000) ⟨"USD", 2⟩, fromRaw (I64.saturate 2000000000) ⟨"USD", 2⟩,
    rfl, by decide, add_comm_of_currency rfl⟩

/-- `x - y` returns what `x + (-y)` returns, in every profile, whenever `-y` does not overflow;
only their panic messages differ. -/
theorem sub_eq_ret_iff_add_neg (prof : Profile) (x : Money) {y : Money} (hy : y.raw.val ≠ i64Min)
    (z : Money) : x.sub y = .ret z ↔ (y.neg prof >>= x.add) = .ret z := by
  obtain ⟨w, hw, hwv, hwc⟩ := neg_of_ne_min prof hy
  rw [hw, Run.ret_bind, sub_eq_ret, add_eq_ret, hwv, hwc, sub_eq_add_neg]

/-- One dollar less two dollars. -/
theorem sub_eq_ret_iff_add_neg_usd :
    ∃ x y z : Money, y.raw.val ≠ i64Min ∧ x.sub y = .ret z ∧
      (x.sub y = .ret z ↔ (y.neg ⟨true⟩ >>= x.add) = .ret z) :=
  ⟨fromRaw (I64.saturate 1000000000) ⟨"USD", 2⟩, fromRaw (I64.saturate 2000000000) ⟨"USD", 2⟩,
    fromRaw (I64.saturate (-1000000000)) ⟨"USD", 2⟩, by decide, by decide,
    sub_eq_ret_iff_add_neg ⟨true⟩ _ (by decide) _⟩

end Money

end NautilusCore
