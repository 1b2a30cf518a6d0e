import NautilusCore.Money.Invariant

/-!
# A `Money` variable updated in place

The arithmetic of `Money` is used on a variable `x` that goes through a sequence of
`x += y`, `x -= y` and `x = -x` (lines 224–296). `runUpdates` performs such a sequence with the
modelled operations, a panic ending the run. `exactRun` says what the operations are for:
exact integer arithmetic on the raw values, in one currency, that stops rather than leave
`i64`.

Results:
* `runUpdates_checked`: with overflow checks a run returns exactly when `exactRun` does, with
  its value and the starting currency: no update wraps or changes the currency, from any
  starting value and over runs of any length;
* `runUpdates_profile`: the two build profiles part only where the checked run takes `x = -x`
  at `i64::MIN` (`NegatesMin`), which a run whose values all satisfy the range invariant never
  does; there the release build wraps and goes on (`runUpdates_release_min`);
* `runUpdates_inRange`: such a run keeps the range invariant in both profiles;
* `runUpdates_currency`: in both profiles currencies never mix: a run that returns ends in its
  starting currency and took only operands of that currency, so any other operand panics;
* `asDecimal_runUpdates`: seen through `as_decimal`, a checked run on aligned values is exact
  decimal arithmetic on the amounts (`decimalRun`), the alignment kept at every step.
-/

namespace NautilusCore.Money

/-- `z`, if it is an `i64`. -/
def inI64 (z : ℤ) : Option ℤ := if i64Min ≤ z ∧ z ≤ i64Max then some z else none

theorem inI64_eq_some {z v : ℤ} : inI64 z = some v ↔ z = v ∧ i64Min ≤ v ∧ v ≤ i64Max := by
  unfold inI64
  split_ifs with h
  · constructor
    · rintro ⟨⟩; exact ⟨rfl, h⟩
    · rintro ⟨rfl, -⟩; rfl
  · simp only [reduceCtorEq, false_iff]
    rintro ⟨rfl, hv⟩; exact h hv

/-- One in-place update of a `Money` variable. -/
inductive Update where
  /-- `x += y` (`AddAssign`, lines 270–282). -/
  | addAssign (y : Money)
  /-- `x -= y` (`SubAssign`, lines 284–296). -/
  | subAssign (y : Money)
  /-- `x = -x` (`Neg`, lines 224–232). -/
  | neg

namespace Update

/-- Perform one update on `x`. -/
def run (prof : Profile) (x : Money) : Update → Run Money
  | addAssign y => (x.addAssign y).1 >>= fun _ => pure (x.addAssign y).2
  | subAssign y => (x.subAssign y).1 >>= fun _ => pure (x.subAssign y).2
  | neg => x.neg prof

/-- The update on the exact raw value `v` of currency `c`: defined when the operand has
currency `c` and the result is an `i64`. -/
def exact (c : Currency) (v : ℤ) : Update → Option ℤ
  | addAssign y => if y.currency = c then inI64 (v + y.raw.val) else none
  | subAssign y => if y.currency = c then inI64 (v - y.raw.val) else none
  | neg => inI64 (-v)

/-- What an update is for: exact arithmetic on the decimal amount `raw / 10^9`. -/
def decimal (q : ℚ) : Update → ℚ
  | addAssign y => q + y.raw.val / 10 ^ 9
  | subAssign y => q - y.raw.val / 10 ^ 9
  | neg => -q

/-- The operand of an update, if it has one. -/
def operand : Update → Option Money
  | addAssign y => some y
  | subAssign y => some y
  | neg => none

theorem run_addAssign (prof : Profile) (x y : Money) : (addAssign y).run prof x = x.add y := by
  show (x.assign (x.add y)).1 >>= (fun _ => pure (x.assign (x.add y)).2) = _
  cases x.add y <;> rfl

theorem run_subAssign (prof : Profile) (x y : Money) : (subAssign y).run prof x = x.sub y := by
  show (x.assign (x.sub y)).1 >>= (fun _ => pure (x.assign (x.sub y)).2) = _
  cases x.sub y <;> rfl

theorem neg_checked_eq_ret {x m : Money} :
    x.neg ⟨true⟩ = .ret m ↔ m.raw.val = -x.raw.val ∧ m.currency = x.currency := by
  simp only [Money.neg, I64.neg, I64.arith, if_true]
  rcases h : I64.ofInt? (-x.raw.val) with _ | r
  · refine ⟨fun e => (nomatch e), fun ⟨hv, _⟩ => ?_⟩
    exact absurd (I64.ofInt?_eq_some.mpr hv) (by rw [h]; exact nofun)
  · rw [I64.ofInt?_eq_some] at h
    simp only [Run.ret_bind, Run.pure_eq, Run.ret.injEq, eq_iff_raw_val (m := m), ← h]
    exact ⟨fun ⟨h1, h2⟩ => ⟨h1.symm, h2.symm⟩, fun ⟨h1, h2⟩ => ⟨h1.symm, h2.symm⟩⟩

/-- One step of the checked code is one step of the exact machine. -/
theorem run_checked (u : Update) (x m : Money) :
    u.run ⟨true⟩ x = .ret m ↔ u.exact x.currency x.raw.val = some m.raw.val ∧
      m.currency = x.currency := by
  have hm := m.raw.min_le
  have hM := m.raw.le_max
  cases u with
  | addAssign y =>
    rw [run_addAssign, add_eq_ret, exact]
    by_cases hc : y.currency = x.currency
    · rw [if_pos hc, inI64_eq_some]
      simp only [hc, hm, hM, true_and, and_true]
      constructor <;> rintro ⟨h1, h2⟩ <;> exact ⟨h1.symm, h2⟩
    · simp [hc, Ne.symm hc]
  | subAssign y =>
    rw [run_subAssign, sub_eq_ret, exact]
    by_cases hc : y.currency = x.currency
    · rw [if_pos hc, inI64_eq_some]
      simp only [hc, hm, hM, true_and, and_true]
      constructor <;> rintro ⟨h1, h2⟩ <;> exact ⟨h1.symm, h2⟩
    · simp [hc, Ne.symm hc]
  | neg =>
    simp only [run, exact, neg_checked_eq_ret, inI64_eq_some, hm, hM, and_true]
    constructor <;> rintro ⟨h1, h2⟩ <;> exact ⟨h1.symm, h2⟩

theorem exact_mem {c : Currency} {v v' : ℤ} {u : Update} (h : u.exact c v = some v') :
    i64Min ≤ v' ∧ v' ≤ i64Max := by
  cases u <;> simp only [exact] at h <;> (try split_ifs at h) <;> exact (inI64_eq_some.mp h).2

/-- An update depends on the build profile only as `x = -x` at `i64::MIN`. -/
theorem run_profile (prof : Profile) (u : Update) {x : Money} (h : u = neg → x.raw.val ≠ i64Min) :
    u.run prof x = u.run ⟨true⟩ x := by
  cases u with
  | addAssign y => rw [run_addAssign, run_addAssign]
  | subAssign y => rw [run_subAssign, run_subAssign]
  | neg =>
    have h := h rfl
    obtain ⟨z, hz, hv, hc⟩ := neg_of_ne_min prof h
    obtain ⟨z', hz', hv', hc'⟩ := neg_of_ne_min ⟨true⟩ h
    rw [run, run, hz, hz', eq_iff_raw_val.mpr ⟨hv.trans hv'.symm, hc.trans hc'.symm⟩]

/-- In either profile, an update that returns keeps the currency and had an operand of that
currency. -/
theorem run_currency {prof : Profile} {u : Update} {x m : Money} (h : u.run prof x = .ret m) :
    m.currency = x.currency ∧ ∀ y ∈ u.operand, y.currency = x.currency := by
  cases u with
  | addAssign y =>
    obtain ⟨hc, -, hm⟩ := (add_eq_ret x y m).mp (run_addAssign prof x y ▸ h)
    exact ⟨hm, fun y' hy => by cases hy; exact hc.symm⟩
  | subAssign y =>
    obtain ⟨hc, -, hm⟩ := (sub_eq_ret x y m).mp (run_subAssign prof x y ▸ h)
    exact ⟨hm, fun y' hy => by cases hy; exact hc.symm⟩
  | neg =>
    simp only [run, Money.neg] at h
    obtain ⟨r, -, hr⟩ := Run.bind_eq_ret.mp h
    exact ⟨by cases hr; rfl, fun y hy => absurd hy (Option.not_mem_none y)⟩

/-- A checked update of an aligned value by an aligned operand gives an aligned value, whose
amount is the exact decimal result. -/
theorem run_aligned {u : Update} {x m : Money} (hx : x.Aligned)
    (hu : ∀ y ∈ u.operand, y.Aligned) (h : u.run ⟨true⟩ x = .ret m) :
    m.Aligned ∧ (m.raw.val : ℚ) / 10 ^ 9 = u.decimal (x.raw.val / 10 ^ 9) := by
  cases u with
  | addAssign y =>
    obtain ⟨hm, hv⟩ := add_aligned hx (hu y rfl) (run_addAssign _ x y ▸ h)
    exact ⟨hm, by rw [hv, decimal]; push_cast; ring⟩
  | subAssign y =>
    obtain ⟨hm, hv⟩ := sub_aligned hx (hu y rfl) (run_subAssign _ x y ▸ h)
    exact ⟨hm, by rw [hv, decimal]; push_cast; ring⟩
  | neg =>
    obtain ⟨hv, hc⟩ := neg_checked_eq_ret.mp h
    exact ⟨⟨hc ▸ hx.1, by rw [hv, hc]; exact dvd_neg.mpr hx.2⟩,
      by rw [hv, decimal]; push_cast; ring⟩

end Update

/-- Perform the updates `us` on `x`, in order; a panic ends the run. -/
def runUpdates (prof : Profile) (x : Money) : List Update → Run Money
  | [] => .ret x
  | u :: us => u.run prof x >>= fun x' => runUpdates prof x' us

/-- The exact machine: the raw value after `us`, from the raw value `v` of currency `c`. -/
def exactRun (c : Currency) (v : ℤ) : List Update → Option ℤ
  | [] => some v
  | u :: us => (u.exact c v).bind fun v' => exactRun c v' us

theorem runUpdates_checked (x : Money) (us : List Update) (m : Money) :
    runUpdates ⟨true⟩ x us = .ret m ↔
      exactRun x.currency x.raw.val us = some m.raw.val ∧ m.currency = x.currency := by
  induction us generalizing x with
  | nil =>
    simp only [runUpdates, exactRun, Run.ret.injEq, Option.some.injEq, eq_iff_raw_val]
    exact ⟨fun ⟨h1, h2⟩ => ⟨h1, h2.symm⟩, fun ⟨h1, h2⟩ => ⟨h1, h2.symm⟩⟩
  | cons u us ih =>
    simp only [runUpdates, exactRun, Run.bind_eq_ret, Option.bind_eq_some]
    constructor
    · rintro ⟨x', h1, h2⟩
      obtain ⟨e1, c1⟩ := (Update.run_checked u x x').mp h1
      obtain ⟨e2, c2⟩ := (ih x').mp h2
      rw [c1] at e2 c2
      exact ⟨⟨x'.raw.val, e1, e2⟩, c2⟩
    · rintro ⟨⟨v', e1, e2⟩, c2⟩
      obtain ⟨h1, h2⟩ := Update.exact_mem e1
      exact ⟨⟨⟨v', h1, h2⟩, x.currency⟩, (Update.run_checked u x _).mpr ⟨e1, rfl⟩,
        (ih _).mpr ⟨e2, c2⟩⟩

/-- The decimal amount after `us`, from the amount `q`, in exact arithmetic. -/
def decimalRun (q : ℚ) : List Update → ℚ
  | [] => q
  | u :: us => decimalRun (u.decimal q) us

/-- A checked run on aligned values stays aligned, and moves the amount as `decimalRun`. -/
theorem runUpdates_aligned {x m : Money} {us : List Update} (hx : x.Aligned)
    (hus : ∀ u ∈ us, ∀ y ∈ u.operand, y.Aligned) (h : runUpdates ⟨true⟩ x us = .ret m) :
    m.Aligned ∧ (m.raw.val : ℚ) / 10 ^ 9 = decimalRun (x.raw.val / 10 ^ 9) us := by
  induction us generalizing x with
  | nil => cases h; exact ⟨hx, rfl⟩
  | cons u us ih =>
    simp only [runUpdates] at h
    obtain ⟨x', h1, h2⟩ := Run.bind_eq_ret.mp h
    obtain ⟨hx', hv⟩ := Update.run_aligned hx (hus u (List.mem_cons_self u us)) h1
    rw [decimalRun, ← hv]
    exact ih hx' (fun v hv y hy => hus v (List.mem_cons_of_mem u hv) y hy) h2

/-- Seen through `as_decimal`, a checked run on aligned values is exact decimal arithmetic:
every value it goes through is aligned, the one it returns included, and the decimal of that
value is the amount `decimalRun` computes. -/
theorem asDecimal_runUpdates (prof : Profile) {x m : Money} {us : List Update} (hx : x.Aligned)
    (hus : ∀ u ∈ us, ∀ y ∈ u.operand, y.Aligned) (h : runUpdates ⟨true⟩ x us = .ret m) :
    (∀ pre post y, us = pre ++ post → runUpdates ⟨true⟩ x pre = .ret y → y.Aligned) ∧
      m.Aligned ∧ ∃ d, m.asDecimal prof = .ret d ∧ d.val = decimalRun (x.raw.val / 10 ^ 9) us := by
  obtain ⟨hm, hv⟩ := runUpdates_aligned hx hus h
  obtain ⟨d, hd, hdv⟩ := asDecimal_of_aligned prof hm
  refine ⟨fun pre post y hpre hy => (runUpdates_aligned hx (fun u hu => hus u
    (hpre ▸ List.mem_append_left post hu)) hy).1, hm, d, hd, hdv.trans hv⟩

/-- One dollar, plus fifty cents, negated. -/
theorem asDecimal_runUpdates_usd :
    ∃ (x m : Money) (us : List Update), x.Aligned ∧ (∀ u ∈ us, ∀ y ∈ u.operand, y.Aligned) ∧
      runUpdates ⟨true⟩ x us = .ret m ∧ us.length = 2 ∧
      (∀ pre post y, us = pre ++ post → runUpdates ⟨true⟩ x pre = .ret y → y.Aligned) ∧
      m.Aligned ∧ ∃ d, m.asDecimal ⟨true⟩ = .ret d ∧ d.val = decimalRun (x.raw.val / 10 ^ 9) us :=
  ⟨fromRaw (I64.saturate 1000000000) ⟨"USD", 2⟩, fromRaw (I64.saturate (-1500000000)) ⟨"USD", 2⟩,
    [.addAssign (fromRaw (I64.saturate 500000000) ⟨"USD", 2⟩), .neg], by decide, by decide,
    by decide, rfl, asDecimal_runUpdates ⟨true⟩ (by decide) (by decide) (by decide)⟩

/-- The values a run of the exact machine from `v` goes through, its last one included, all
satisfy the range invariant. -/
def StaysInRange (c : Currency) (v : ℤ) : List Update → Prop
  | [] => RawInRange v
  | u :: us => RawInRange v ∧ match u.exact c v with
    | some v' => StaysInRange c v' us
    | none => True

instance decStaysInRange (c : Currency) : (v : ℤ) → (us : List Update) →
    Decidable (StaysInRange c v us)
  | v, [] => inferInstanceAs (Decidable (RawInRange v))
  | v, u :: us =>
    @instDecidableAnd _ _ _ (match u.exact c v with
      | some v' => decStaysInRange c v' us
      | none => instDecidableTrue)

theorem ne_min_of_rawInRange {v : ℤ} (h : RawInRange v) : v ≠ i64Min := by
  unfold RawInRange moneyRawMax at h; unfold i64Min; omega

/-- The checked run of `us` from `x` takes `x = -x` at `i64::MIN`, the one step at which the
build profiles part. -/
def NegatesMin (x : Money) : List Update → Prop
  | [] => False
  | u :: us => (u = .neg ∧ x.raw.val = i64Min) ∨
      match u.run ⟨true⟩ x with
      | .ret x' => NegatesMin x' us
      | .panic _ => False

theorem runUpdates_eq_checked {prof : Profile} {x : Money} {us : List Update}
    (h : ¬ NegatesMin x us) : runUpdates prof x us = runUpdates ⟨true⟩ x us := by
  induction us generalizing x with
  | nil => rfl
  | cons u us ih =>
    simp only [NegatesMin, not_or] at h
    simp only [runUpdates]
    rw [Update.run_profile prof u (fun hu hx => h.1 ⟨hu, hx⟩)]
    rcases hu : u.run ⟨true⟩ x with x' | msg
    · exact ih (by simpa only [hu] using h.2)
    · rfl

/-- A run whose exact values stay in range never negates `i64::MIN`. -/
theorem not_negatesMin_of_stays {x : Money} {us : List Update}
    (h : StaysInRange x.currency x.raw.val us) : ¬ NegatesMin x us := by
  induction us generalizing x with
  | nil => exact id
  | cons u us ih =>
    rintro (⟨-, hmin⟩ | hn)
    · exact ne_min_of_rawInRange h.1 hmin
    · rcases hu : u.run ⟨true⟩ x with x' | msg
      · obtain ⟨e1, c1⟩ := (Update.run_checked u x x').mp hu
        have h2 := h.2
        rw [e1] at h2
        exact ih (c1 ▸ h2) (by simpa only [hu] using hn)
      · simp only [hu] at hn

/-- The build profiles part only where the checked run takes `x = -x` at `i64::MIN`: every other
run does the same in both, panics and their messages included; a run whose exact values stay in
range is one of them. -/
theorem runUpdates_profile (prof : Profile) (x : Money) (us : List Update) :
    (¬ NegatesMin x us → runUpdates prof x us = runUpdates ⟨true⟩ x us) ∧
      (StaysInRange x.currency x.raw.val us → ¬ NegatesMin x us) :=
  ⟨runUpdates_eq_checked, not_negatesMin_of_stays⟩

/-- A run whose exact values all stay in range keeps the range invariant, in both profiles: the
value it returns is in range. Where an exact value leaves the range, so does the run
(`add_leaves_range`). -/
theorem runUpdates_inRange (prof : Profile) {x m : Money} {us : List Update}
    (hs : StaysInRange x.currency x.raw.val us) (h : runUpdates prof x us = .ret m) :
    m.InRange := by
  rw [runUpdates_eq_checked (not_negatesMin_of_stays hs)] at h
  induction us generalizing x with
  | nil => cases h; exact hs
  | cons u us ih =>
    simp only [runUpdates] at h
    obtain ⟨x', h1, h2⟩ := Run.bind_eq_ret.mp h
    obtain ⟨e1, c1⟩ := (Update.run_checked u x x').mp h1
    have h3 := hs.2
    rw [e1] at h3
    exact ih (c1 ▸ h3) h2

/-- Currencies never mix, in either profile: a run that returns ends in its starting currency
and used only operands of that currency. -/
theorem runUpdates_currency (prof : Profile) (x : Money) (us : List Update) {m : Money}
    (h : runUpdates prof x us = .ret m) :
    m.currency = x.currency ∧ ∀ u ∈ us, ∀ y ∈ u.operand, y.currency = x.currency := by
  induction us generalizing x with
  | nil => cases h; exact ⟨rfl, fun u hu => absurd hu (List.not_mem_nil u)⟩
  | cons u us ih =>
    simp only [runUpdates] at h
    obtain ⟨x', h1, h2⟩ := Run.bind_eq_ret.mp h
    obtain ⟨c1, o1⟩ := Update.run_currency h1
    obtain ⟨c2, o2⟩ := ih x' h2
    refine ⟨c2.trans c1, fun v hv y hy => ?_⟩
    rcases List.mem_cons.mp hv with rfl | hv
    · exact o1 y hy
    · exact (o2 v hv y hy).trans c1

/-- `100 += 50`, then `x = -x`, in a release build. -/
theorem runUpdates_currency_usd :
    runUpdates ⟨false⟩ (fromRaw (I64.saturate 100) ⟨"USD", 2⟩)
        [.addAssign (fromRaw (I64.saturate 50) ⟨"USD", 2⟩), .neg] =
      .ret (fromRaw (I64.saturate (-150)) ⟨"USD", 2⟩) ∧
    (fromRaw (I64.saturate (-150)) ⟨"USD", 2⟩).currency = ⟨"USD", 2⟩ :=
  ⟨by decide, (runUpdates_currency ⟨false⟩ (fromRaw (I64.saturate 100) ⟨"USD", 2⟩)
    [.addAssign (fromRaw (I64.saturate 50) ⟨"USD", 2⟩), .neg] (by decide)).1⟩

/-- `100 += 50`, then `x = -x`, from a raw value of `100`. -/
theorem runUpdates_profile_neg :
    StaysInRange ⟨"USD", 2⟩ 100 [.addAssign (fromRaw (I64.saturate 50) ⟨"USD", 2⟩), .neg] ∧
      runUpdates ⟨false⟩ (fromRaw (I64.saturate 100) ⟨"USD", 2⟩)
          [.addAssign (fromRaw (I64.saturate 50) ⟨"USD", 2⟩), .neg] =
        runUpdates ⟨true⟩ (fromRaw (I64.saturate 100) ⟨"USD", 2⟩)
          [.addAssign (fromRaw (I64.saturate 50) ⟨"USD", 2⟩), .neg] :=
  ⟨by decide, (runUpdates_profile _ _ _).1 ((runUpdates_profile ⟨false⟩ _ _).2 (by decide))⟩

/-- The range condition is needed: from `MONEY_MIN · 10^9`, subtracting `854_775_808` raw units
(both in range) reaches `i64::MIN`, which `x = -x` then wraps to itself in release and rejects
with overflow checks. -/
theorem runUpdates_release_min :
    runUpdates ⟨true⟩ (fromRaw (I64.saturate (-moneyRawMax)) ⟨"USD", 2⟩)
        [.subAssign (fromRaw (I64.saturate 854775808) ⟨"USD", 2⟩), .neg] =
      .panic "attempt to negate with overflow" ∧
    runUpdates ⟨false⟩ (fromRaw (I64.saturate (-moneyRawMax)) ⟨"USD", 2⟩)
        [.subAssign (fromRaw (I64.saturate 854775808) ⟨"USD", 2⟩), .neg] =
      .ret (fromRaw I64.min ⟨"USD", 2⟩) := by
  decide

end NautilusCore.Money
