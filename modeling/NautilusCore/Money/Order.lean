import NautilusCore.Money.Basic

/-!
# `Money` equality and order

`PartialEq` compares raw value and currency; `Ord::cmp`, `partial_cmp` and the overridden
`lt`, `le`, `gt`, `ge` first assert that the currencies are equal.

Results:
* `order_consistent`: on one currency, `cmp` orders by the raw value and every comparison
  method answers what `cmp` determines; across currencies all of them panic but `==`, which
  is `false`;
* `eq_iff_hashInput`: `Hash` reads exactly what `PartialEq` compares, so equal values hash alike;
* `le_totalOrder`: on one currency `<=` is a total order, antisymmetric up to `==`.
-/

namespace NautilusCore.Money

theorem eq_iff (x y : Money) : x.eq y = true ↔ x = y := by
  obtain ⟨⟨a, _, _⟩, c⟩ := x
  obtain ⟨⟨b, _, _⟩, d⟩ := y
  simp [eq]

/-- `Hash` feeds the hasher the two fields `==` compares. -/
theorem eq_iff_hashInput (x y : Money) : x.eq y = true ↔ x.hashInput = y.hashInput := by
  simp [eq, hashInput]

theorem cmp_eq (x y : Money) :
    x.cmp y = if x.currency = y.currency then .ret (compare x.raw.val y.raw.val)
      else .panic (assertEqMsg none) := by
  unfold cmp assertEq
  split_ifs <;> rfl

theorem compareBy_eq (rel : ℤ → ℤ → Bool) (x y : Money) :
    x.compareBy rel y = if x.currency = y.currency then .ret (rel x.raw.val y.raw.val)
      else .panic (assertEqMsg none) := by
  unfold compareBy assertEq
  split_ifs <;> rfl

theorem le_of_currency {x y : Money} (h : x.currency = y.currency) :
    x.le y = .ret (decide (x.raw.val ≤ y.raw.val)) := by
  simp [le, compareBy_eq, h]

theorem le_eq_ret_true_iff {x y : Money} (h : x.currency = y.currency) :
    x.le y = .ret true ↔ x.raw.val ≤ y.raw.val := by
  simp [le_of_currency h]

/-- On one currency `<=` never panics and is a total order: it returns whether the raw values
compare, so it is reflexive, total, transitive, and antisymmetric up to `==`. -/
theorem le_totalOrder {x y z : Money} (hxy : x.currency = y.currency)
    (hyz : y.currency = z.currency) :
    x.le y = .ret (decide (x.raw.val ≤ y.raw.val)) ∧
      x.le x = .ret true ∧ (x.le y = .ret true ∨ y.le x = .ret true) ∧
      (x.le y = .ret true → y.le z = .ret true → x.le z = .ret true) ∧
      (x.le y = .ret true → y.le x = .ret true → x.eq y = true) := by
  refine ⟨le_of_currency hxy, ?_⟩
  rw [le_eq_ret_true_iff rfl, le_eq_ret_true_iff hxy, le_eq_ret_true_iff hxy.symm,
    le_eq_ret_true_iff hyz, le_eq_ret_true_iff (hxy.trans hyz)]
  refine ⟨le_rfl, le_total _ _, le_trans, fun h1 h2 => ?_⟩
  simp [eq, le_antisymm h1 h2, hxy]

/-- One, two and three dollars. -/
theorem le_totalOrder_usd :
    ∃ x y z : Money, x.currency = y.currency ∧ y.currency = z.currency ∧ x ≠ y ∧ y ≠ z ∧
      x.le y = .ret (decide (x.raw.val ≤ y.raw.val)) ∧ x.le x = .ret true ∧ (x.le y = .ret true ∨ y.le x = .ret true) ∧
      (x.le y = .ret true → y.le z = .ret true → x.le z = .ret true) ∧
      (x.le y = .ret true → y.le x = .ret true → x.eq y = true) :=
  ⟨fromRaw (I64.saturate 1000000000) ⟨"USD", 2⟩, fromRaw (I64.saturate 2000000000) ⟨"USD", 2⟩,
    fromRaw (I64.saturate 3000000000) ⟨"USD", 2⟩, rfl, rfl, by decide, by decide,
    le_totalOrder rfl rfl⟩

/-- The comparison methods agree with `cmp`, which orders one currency's values by their raw
amount; across currencies only `==` returns. -/
theorem order_consistent (x y : Money) :
    (x.currency = y.currency →
      ∃ o, x.cmp y = .ret o ∧
        (o = .lt ↔ x.raw.val < y.raw.val) ∧ (o = .eq ↔ x = y) ∧
        (o = .gt ↔ y.raw.val < x.raw.val) ∧
        x.partialCmp y = .ret (some o) ∧
        x.lt y = .ret (decide (o = .lt)) ∧ x.le y = .ret (decide (o ≠ .gt)) ∧
        x.gt y = .ret (decide (o = .gt)) ∧ x.ge y = .ret (decide (o ≠ .lt)) ∧
        x.eq y = decide (o = .eq)) ∧
    (x.currency ≠ y.currency →
      Run.IsPanic (x.cmp y) ∧ Run.IsPanic (x.partialCmp y) ∧
      Run.IsPanic (x.lt y) ∧ Run.IsPanic (x.le y) ∧
      Run.IsPanic (x.gt y) ∧ Run.IsPanic (x.ge y) ∧ x.eq y = false) := by
  have heq : x.eq y = decide (x = y) := by rw [Bool.eq_iff_iff, eq_iff, decide_eq_true_iff]
  have hxy : x = y ↔ x.raw.val = y.raw.val ∧ x.currency = y.currency := by
    rw [← eq_iff]; simp [eq]
  refine ⟨fun h => ⟨_, by rw [cmp_eq, if_pos h], ?_⟩, fun h => ?_⟩
  · simp only [partialCmp, lt, le, gt, ge, cmp_eq, compareBy_eq, if_pos h, Run.map_ret, heq,
      hxy, h, and_true]
    rcases lt_trichotomy x.raw.val y.raw.val with hl | he | hg
    · simp [compare_lt_iff_lt.mpr hl, hl, hl.ne, hl.le, not_lt.mpr hl.le]
    · simp [he, compare_eq_iff_eq.mpr rfl]
    · simp [compare_gt_iff_gt.mpr hg, hg, hg.ne', hg.le, not_lt.mpr hg.le]
  · simp [partialCmp, lt, le, gt, ge, cmp_eq, compareBy_eq, h, eq]

end NautilusCore.Money
