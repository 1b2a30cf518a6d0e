import NautilusCore.Tardis.Parse

/-!
# `parse_bar_spec` returns exactly on well-formed bar specifications

`parse_bar_spec` splits on `_`, takes the last piece, finds its first non-digit with
`chars().position` and splits there with `split_at`, which reads the character index as a
byte index. Every character before it is an ASCII digit, one byte long, so the two indices
agree and `split_at` never panics; what remains are the three `expect`s and the `panic!` of
the unit match.

Results:
* `parseBarSpec_eq_ret`: `parse_bar_spec s` returns `r` exactly when the text after the last
  `_` of `s` (all of `s` without one) is a nonempty run of ASCII digits whose value fits in a
  `usize`, followed by one of the units `ms`, `s`, `m`, `ticks`, `vol`; `r` is then that step,
  the unit's aggregation and `PriceType::Last`;
* `parseBarSpec_eq_panic`: otherwise it panics with the message of the first step that fails on
  that last piece: `Invalid bar spec` when no unit follows the digits, `Invalid step: ...` with
  the `ParseIntError` when no digit precedes the unit or the digits pass `usize::MAX`, and
  `Unsupported bar aggregation type` for any other unit. `split_at` never panics, and the step
  is never rejected for an invalid digit.
-/

namespace NautilusCore.Tardis

/-! ## Specification -/

/-- The units of a Tardis bar specification and the aggregation each stands for. -/
def barUnits : List (List Char × BarAggregation) :=
  [("ms".data, .millisecond), ("s".data, .second), ("m".data, .minute), ("ticks".data, .tick),
    ("vol".data, .volume)]

/-- `L` is the text after the last `_` of `s`, all of `s` when it has none. -/
def IsLastPiece (s L : List Char) : Prop :=
  ∃ pre, s = pre ++ L ∧ (pre = [] ∨ ∃ q, pre = q ++ ['_']) ∧ ∀ c ∈ L, c ≠ '_'

/-! ## The library calls on a digit prefix -/

theorem utf8Size_of_isDigit {c : Char} (h : c.isDigit = true) : c.utf8Size = 1 := by
  simp only [Char.isDigit, Bool.and_eq_true, decide_eq_true_eq] at h
  have : c.val ≤ 127 := UInt32.le_trans h.2 (by decide)
  simp [Char.utf8Size, this]

theorem splitAtByte_digits {d : List Char} (hd : ∀ c ∈ d, c.isDigit = true) (u : List Char) :
    splitAtByte (d ++ u) d.length = .ret (d, u) := by
  induction d with
  | nil => cases u <;> rfl
  | cons c d ih =>
    simp only [List.mem_cons, forall_eq_or_imp] at hd
    simp [splitAtByte, utf8Size_of_isDigit hd.1, ih hd.2]

theorem findIdx?_nonDigit_eq_some {L : List Char} {i : ℕ} :
    L.findIdx? (fun c => !c.isDigit) = some i ↔
      ∃ d c u, L = d ++ c :: u ∧ (∀ x ∈ d, x.isDigit = true) ∧ c.isDigit = false ∧
        i = d.length := by
  induction L generalizing i with
  | nil => simp
  | cons x xs ih =>
    rw [List.findIdx?_cons, List.findIdx?_succ]
    cases hx : x.isDigit
    · simp only [Bool.not_false, ite_true, Option.some.injEq]
      constructor
      · rintro rfl; exact ⟨[], x, xs, rfl, by simp, hx, rfl⟩
      · rintro ⟨d, c, u, he, hd, hc, rfl⟩
        cases d with
        | nil => rfl
        | cons y d => simp only [List.cons_append, List.cons.injEq] at he; simp_all
    · simp only [Bool.not_true, Bool.false_eq_true, ite_false, Option.map_eq_some', ih]
      constructor
      · rintro ⟨j, ⟨d, c, u, rfl, hd, hc, rfl⟩, rfl⟩
        exact ⟨x :: d, c, u, rfl, List.forall_mem_cons.mpr ⟨hx, hd⟩, hc, rfl⟩
      · rintro ⟨d, c, u, he, hd, hc, rfl⟩
        cases d with
        | nil => simp only [List.nil_append, List.cons.injEq] at he; simp_all
        | cons y d =>
          simp only [List.cons_append, List.cons.injEq] at he
          obtain ⟨rfl, rfl⟩ := he
          exact ⟨d.length, ⟨d, c, u, rfl, fun z hz => hd z (by simp [hz]), hc, rfl⟩, rfl⟩

theorem accDigits_of_digits {d : List Char} (hd : ∀ c ∈ d, c.isDigit = true) {acc : ℕ}
    (hacc : acc ≤ usizeMax) :
    accDigits d acc =
      if d.foldl digitStep acc ≤ usizeMax then .ok (d.foldl digitStep acc)
      else .error .posOverflow := by
  induction d generalizing acc with
  | nil => simp [accDigits, hacc]
  | cons c cs ih =>
    simp only [List.mem_cons, forall_eq_or_imp] at hd
    simp only [accDigits, hd.1, ite_true, List.foldl_cons]
    split_ifs with h1 h2 h2
    · rw [ih hd.2 h1, if_pos h2]
    · rw [ih hd.2 h1, if_neg h2]
    · exact absurd (le_trans (le_foldl_digitStep cs _) h2) h1
    · rfl

theorem parseUsize_digits {d : List Char} (hd : ∀ c ∈ d, c.isDigit = true) (hne : d ≠ []) :
    parseUsize d = if digitsVal d ≤ usizeMax then .ok (UInt64.ofNat (digitsVal d))
      else .error .posOverflow := by
  obtain ⟨c, cs, rfl⟩ := List.exists_cons_of_ne_nil hne
  have hc := hd c (List.mem_cons_self c cs)
  have hplus : c ≠ '+' := by rintro rfl; simp at hc
  have hminus : c ≠ '-' := by rintro rfl; simp at hc
  simp only [parseUsize, hplus, hminus, false_or, false_and, ite_false,
    accDigits_of_digits hd (Nat.zero_le _), digitsVal]
  split <;> rfl

theorem aggregationOfSuffix_eq_ret {u : List Char} {agg : BarAggregation} :
    aggregationOfSuffix ⟨u⟩ = .ret agg ↔ (u, agg) ∈ barUnits := by
  unfold aggregationOfSuffix
  split <;> rename_i h
  all_goals simp only [String.ext_iff] at *
  case h_6 =>
    simp only [barUnits, List.mem_cons, Prod.mk.injEq, List.not_mem_nil, or_false]
    simp_all
  -- a listed unit: both sides are decided for each aggregation
  all_goals subst h; cases agg <;> decide

theorem barUnits_shape {u : List Char} {agg : BarAggregation} (h : (u, agg) ∈ barUnits) :
    (∃ c u', u = c :: u' ∧ c.isDigit = false) ∧ ∀ x ∈ u, (x == '_') = false := by
  simp only [barUnits, List.mem_cons, Prod.mk.injEq, List.not_mem_nil, or_false] at h
  rcases h with ⟨rfl, -⟩ | ⟨rfl, -⟩ | ⟨rfl, -⟩ | ⟨rfl, -⟩ | ⟨rfl, -⟩ <;>
    exact ⟨⟨_, _, rfl, by decide⟩, by decide⟩

theorem toNat_ofNat_of_le {n : ℕ} (h : n ≤ usizeMax) : (UInt64.ofNat n).toNat = n :=
  Nat.mod_eq_of_lt (by unfold usizeMax at h; omega)

/-! ## `parse_bar_spec` -/

/-- `parse_bar_spec` on a string whose last piece is the digits `d` followed by a non-digit. -/
theorem parseBarSpec_of_last {s : String} {d u : List Char} {c : Char}
    (hL : (splitOn (fun c => c == '_') s.data).getLast? = some (d ++ c :: u))
    (hd : ∀ x ∈ d, x.isDigit = true) (hc : c.isDigit = false) :
    parseBarSpec s = (do
      let step ← expectOk (parseUsize d) "Invalid step" IntErrorKind.debug
      let aggregation ← aggregationOfSuffix ⟨c :: u⟩
      pure { step, aggregation, priceType := .last }) := by
  have hi : (d ++ c :: u).findIdx? (fun c => !c.isDigit) = some d.length :=
    findIdx?_nonDigit_eq_some.mpr ⟨d, c, u, rfl, hd, hc, rfl⟩
  simp only [parseBarSpec, hL, hi, expectSome_some, Run.ret_bind, splitAtByte_digits hd]

/-- `parse_bar_spec s` returns `r` exactly when the text after the last `_` of `s` is a
nonempty digit run `d` that fits in a `usize`, then a unit `u`; `r` is then `d`'s value, the
unit's aggregation and `PriceType::Last`. -/
theorem parseBarSpec_eq_ret (s : String) (r : BarSpecification) :
    parseBarSpec s = .ret r ↔
      ∃ pre d u agg, s.data = pre ++ d ++ u ∧ (pre = [] ∨ ∃ q, pre = q ++ ['_']) ∧
        d ≠ [] ∧ (∀ c ∈ d, c.isDigit = true) ∧ digitsVal d ≤ usizeMax ∧ (u, agg) ∈ barUnits ∧
        r.step.toNat = digitsVal d ∧ r.aggregation = agg ∧ r.priceType = .last := by
  constructor
  · intro h
    obtain ⟨pre, L, hL, hs, hpre⟩ := splitOn_last_spec (fun c => c == '_') s.data
    have h' := h
    simp only [parseBarSpec, hL, expectSome_some, Run.ret_bind] at h'
    obtain ⟨i, hi, -⟩ := Run.bind_eq_ret.mp h'
    obtain ⟨d, c, u, rfl, hd, hc, -⟩ := findIdx?_nonDigit_eq_some.mp (expectSome_eq_ret.mp hi)
    rw [parseBarSpec_of_last hL hd hc] at h
    obtain ⟨step, hstep, h⟩ := Run.bind_eq_ret.mp h
    obtain ⟨agg, hagg, h⟩ := Run.bind_eq_ret.mp h
    have hne : d ≠ [] := by rintro rfl; simp [parseUsize, expectOk] at hstep
    rw [expectOk_eq_ret, parseUsize_digits hd hne] at hstep
    split_ifs at hstep with hmax
    cases hstep
    cases h
    refine ⟨pre, d, c :: u, agg, by simp [hs], ?_, hne, hd, hmax,
      aggregationOfSuffix_eq_ret.mp hagg, ?_, rfl, rfl⟩
    · rcases hpre with ⟨-, rfl⟩ | ⟨-, q, x, rfl, hx⟩
      · exact .inl rfl
      · exact .inr ⟨q, by simpa using hx⟩
    · exact toNat_ofNat_of_le hmax
  · rintro ⟨pre, d, u, agg, hs, hpre, hne, hd, hmax, hu, hstep, hagg, hprice⟩
    obtain ⟨⟨c, u, rfl, hc⟩, hsep⟩ := barUnits_shape hu
    have hL : (splitOn (fun c => c == '_') s.data).getLast? = some (d ++ c :: u) := by
      rw [hs, List.append_assoc]
      refine getLast?_splitOn_append ?_ fun x hx => ?_
      · rcases hpre with rfl | ⟨q, rfl⟩
        · exact .inl rfl
        · exact .inr ⟨q, '_', rfl, rfl⟩
      · rcases List.mem_append.mp hx with hx | hx
        · have hx' := hd x hx
          cases h : x == '_'
          · rfl
          · rw [beq_iff_eq.mp h] at hx'; exact absurd hx' (by decide)
        · exact hsep x hx
    obtain ⟨step, agg', pt⟩ := r
    obtain rfl : step = UInt64.ofNat (digitsVal d) :=
      UInt64.eq_of_val_eq (Fin.ext (hstep.trans (toNat_ofNat_of_le hmax).symm))
    dsimp only at hagg hprice
    subst hagg hprice
    rw [parseBarSpec_of_last hL (fun x hx => hd x hx) hc, parseUsize_digits hd hne, if_pos hmax]
    simp [expectOk, (aggregationOfSuffix_eq_ret.mpr hu)]

/-! ## The panics of `parse_bar_spec` -/

theorem getLast?_of_isLastPiece {s L : List Char} (h : IsLastPiece s L) :
    (splitOn (fun c => c == '_') s).getLast? = some L := by
  obtain ⟨pre, rfl, hpre, hL⟩ := h
  refine getLast?_splitOn_append ?_ fun c hc => beq_false_of_ne (hL c hc)
  rcases hpre with rfl | ⟨q, rfl⟩
  · exact .inl rfl
  · exact .inr ⟨q, '_', rfl, rfl⟩

theorem aggregationOfSuffix_eq_panic {u : List Char} {msg : String} :
    aggregationOfSuffix ⟨u⟩ = .panic msg ↔
      msg = "Unsupported bar aggregation type" ∧ ∀ agg, (u, agg) ∉ barUnits := by
  have hcases : (∃ agg, aggregationOfSuffix ⟨u⟩ = .ret agg) ∨
      aggregationOfSuffix ⟨u⟩ = .panic "Unsupported bar aggregation type" := by
    unfold aggregationOfSuffix; split <;> simp
  rcases hcases with ⟨agg, ha⟩ | ha
  · rw [ha]
    exact iff_of_false nofun fun h => h.2 agg (aggregationOfSuffix_eq_ret.mp ha)
  · rw [ha, Run.panic.injEq, eq_comm, iff_self_and]
    rintro - agg hm
    rw [aggregationOfSuffix_eq_ret.mpr hm] at ha
    cases ha

/-- A last piece of digits only has no unit: the `position` of a non-digit is `None`. -/
theorem parseBarSpec_of_digits {s : String} {L : List Char}
    (hL : (splitOn (fun c => c == '_') s.data).getLast? = some L)
    (hd : ∀ c ∈ L, c.isDigit = true) :
    parseBarSpec s = .panic "Invalid bar spec" := by
  have hi : L.findIdx? (fun c => !c.isDigit) = none :=
    List.findIdx?_eq_none_iff.mpr fun c hc => by simp [hd c hc]
  simp only [parseBarSpec, hL, hi, expectSome_some, expectSome_none, Run.ret_bind,
    Run.panic_bind]

/-- The outcome on a last piece `d ++ c :: u`, digits then a non-digit: the step's two errors,
then the unit. -/
theorem parseBarSpec_of_unit {s : String} {d u : List Char} {c : Char}
    (hL : (splitOn (fun c => c == '_') s.data).getLast? = some (d ++ c :: u))
    (hd : ∀ x ∈ d, x.isDigit = true) (hc : c.isDigit = false) :
    parseBarSpec s =
      if d = [] then .panic "Invalid step: ParseIntError \x7b kind: Empty \x7d"
      else if usizeMax < digitsVal d then
        .panic "Invalid step: ParseIntError \x7b kind: PosOverflow \x7d"
      else
        (fun agg => ⟨UInt64.ofNat (digitsVal d), agg, .last⟩) <$> aggregationOfSuffix ⟨c :: u⟩ := by
  rw [parseBarSpec_of_last hL hd hc]
  split_ifs with h1 h2
  · subst h1; rfl
  · rw [parseUsize_digits hd h1, if_neg (not_le.mpr h2)]; rfl
  · rw [parseUsize_digits hd h1, if_pos (not_lt.mp h2)]
    cases aggregationOfSuffix ⟨c :: u⟩ <;> rfl

/-- `parse_bar_spec` panics with the message of the first step that fails on the last piece
`L`: no unit after the digits, no digit before the unit, digits past `usize::MAX`, or a unit
that is none of the five. No other panic is possible. -/
theorem parseBarSpec_eq_panic {s : String} {L : List Char} (hL : IsLastPiece s.data L)
    (msg : String) :
    parseBarSpec s = .panic msg ↔
      ((∀ c ∈ L, c.isDigit = true) ∧ msg = "Invalid bar spec") ∨
      ∃ d c u, L = d ++ c :: u ∧ (∀ x ∈ d, x.isDigit = true) ∧ c.isDigit = false ∧
        (d = [] ∧ msg = "Invalid step: ParseIntError \x7b kind: Empty \x7d" ∨
          d ≠ [] ∧ usizeMax < digitsVal d ∧
            msg = "Invalid step: ParseIntError \x7b kind: PosOverflow \x7d" ∨
          d ≠ [] ∧ digitsVal d ≤ usizeMax ∧ (∀ agg, (c :: u, agg) ∉ barUnits) ∧
            msg = "Unsupported bar aggregation type") := by
  have hlast := getLast?_of_isLastPiece hL
  constructor
  · intro h
    by_cases hall : ∀ c ∈ L, c.isDigit = true
    · rw [parseBarSpec_of_digits hlast hall] at h
      exact .inl ⟨hall, (Run.panic.inj h).symm⟩
    -- some non-digit: `L` splits at the first one
    have hne : L.findIdx? (fun c => !c.isDigit) ≠ none := fun h0 =>
      hall fun c hc => by simpa using List.findIdx?_eq_none_iff.mp h0 c hc
    obtain ⟨i, hi⟩ := Option.ne_none_iff_exists'.mp hne
    obtain ⟨d, c, u, rfl, hd, hc, -⟩ := findIdx?_nonDigit_eq_some.mp hi
    rw [parseBarSpec_of_unit hlast hd hc] at h
    refine .inr ⟨d, c, u, rfl, hd, hc, ?_⟩
    split_ifs at h with h1 h2
    · exact .inl ⟨h1, (Run.panic.inj h).symm⟩
    · exact .inr (.inl ⟨h1, h2, (Run.panic.inj h).symm⟩)
    · rcases ha : aggregationOfSuffix ⟨c :: u⟩ with agg | m <;> rw [ha] at h
      · cases h
      · obtain ⟨rfl, hn⟩ := aggregationOfSuffix_eq_panic.mp ha
        exact .inr (.inr ⟨h1, not_lt.mp h2, hn, (Run.panic.inj h).symm⟩)
  · rintro (⟨hall, rfl⟩ | ⟨d, c, u, rfl, hd, hc, hcase⟩)
    · exact parseBarSpec_of_digits hlast hall
    rw [parseBarSpec_of_unit hlast hd hc]
    rcases hcase with ⟨rfl, rfl⟩ | ⟨hne, hov, rfl⟩ | ⟨hne, hfit, hn, rfl⟩
    · rfl
    · rw [if_neg hne, if_pos hov]
    · rw [if_neg hne, if_neg (not_lt.mpr hfit), aggregationOfSuffix_eq_panic.mpr ⟨rfl, hn⟩]
      rfl

/-- `trade_bar_10unknown`: the step parses and the unit is not one of the five. -/
theorem parseBarSpec_unknown_unit :
    parseBarSpec "trade_bar_10unknown" = .panic "Unsupported bar aggregation type" :=
  (parseBarSpec_eq_panic ⟨"trade_bar_".data, rfl, .inr ⟨"trade_bar".data, rfl⟩, by decide⟩ _).mpr
    (.inr ⟨"10".data, 'u', "nknown".data, rfl, by decide, rfl,
      .inr (.inr ⟨by decide, by decide, fun agg h => by simp [barUnits] at h, rfl⟩)⟩)

end NautilusCore.Tardis
