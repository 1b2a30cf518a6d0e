import NautilusCore.Float.Text
import NautilusCore.Float.Arith

/-!
# Fixed-point text of an `f64` and back

`format!("{:.p}")` writes the integer nearest `|x| · 10^p`, split `p` digits from the right,
behind the sign bit of `x`; `parse::<f64>` reads such a text as that integer over `10^p`,
rounded once. So a value that is within half a unit of `n / 10^p` prints as `n` and reads back
as `fl (n / 10^p)`.

Results:
* `fmtFixed_of_near`: a finite `x` with `|x · 10^p - n| < 1/2` prints as `|n|` at `p` places
  behind its sign bit;
* `parseF64_fixedDigits`: the text of `n` at `p` places, with or without a `-`, parses to the
  binary64 nearest `±n / 10^p`.
-/

namespace NautilusCore

/-! ## Decimal digits -/

theorem foldl_digitStep (ds : List Char) (acc : ℕ) :
    ds.foldl digitStep acc = acc * 10 ^ ds.length + digitsVal ds := by
  induction ds generalizing acc with
  | nil => simp [digitsVal]
  | cons c cs ih =>
    simp only [List.foldl_cons, digitsVal, List.length_cons]
    rw [ih, ih (digitStep 0 c), digitStep, digitStep]
    ring

theorem digitsVal_append (a b : List Char) :
    digitsVal (a ++ b) = digitsVal a * 10 ^ b.length + digitsVal b := by
  rw [digitsVal, List.foldl_append, foldl_digitStep]
  rfl

theorem digitChar_sub (k : ℕ) (hk : k < 10) : (Nat.digitChar k).toNat - 48 = k := by
  revert k; decide

theorem digitsVal_toDigitsCore (fuel n : ℕ) (ds : List Char) (h : n < fuel) :
    digitsVal (Nat.toDigitsCore 10 fuel n ds) = n * 10 ^ ds.length + digitsVal ds := by
  induction fuel generalizing n ds with
  | zero => omega
  | succ k ih =>
    have hd : digitsVal (Nat.digitChar (n % 10) :: ds) =
        n % 10 * 10 ^ ds.length + digitsVal ds := by
      rw [show Nat.digitChar (n % 10) :: ds = [Nat.digitChar (n % 10)] ++ ds from rfl,
        digitsVal_append]
      simp [digitsVal, digitStep, digitChar_sub _ (Nat.mod_lt n (by norm_num))]
    simp only [Nat.toDigitsCore]
    split
    · rw [hd, Nat.mod_eq_of_lt (by omega)]
    · rw [ih _ _ (by omega), hd, List.length_cons, pow_succ]
      conv_rhs => rw [← Nat.div_add_mod n 10]
      ring

theorem digitsVal_natDigits (n : ℕ) : digitsVal (natDigits n) = n := by
  simpa [digitsVal] using digitsVal_toDigitsCore (n + 1) n [] (Nat.lt_succ_self n)

theorem natDigits_ne_nil (n : ℕ) : natDigits n ≠ [] := by
  simp only [natDigits, Nat.toDigits, Nat.toDigitsCore]
  split
  · simp
  · exact List.ne_nil_of_length_pos (by rw [Nat.toDigitsCore_lens_eq]; omega)


theorem digitsVal_replicate_zero (k : ℕ) : digitsVal (List.replicate k '0') = 0 := by
  induction k with
  | zero => rfl
  | succ k ih =>
    rw [List.replicate_succ', digitsVal_append, ih]
    rfl

theorem length_natDigits_le {n p : ℕ} (h : n < 10 ^ p) (hp : 0 < p) :
    (natDigits n).length ≤ p :=
  Nat.toDigitsCore_length 10 (by norm_num) _ n p h hp

/-! ## Reading the text back -/

theorem spanDigits_append {d : List Char} (hd : ∀ c ∈ d, c.isDigit = true) {c : Char}
    (hc : c.isDigit = false) (r : List Char) : spanDigits (d ++ c :: r) = (d, c :: r) := by
  induction d with
  | nil => simp [spanDigits, List.takeWhile, List.dropWhile, hc]
  | cons x d ih =>
    simp only [List.mem_cons, forall_eq_or_imp] at hd
    have := ih hd.2
    simp only [spanDigits, Prod.mk.injEq] at this ⊢
    simp [List.takeWhile, List.dropWhile, hd.1, this]

theorem spanDigits_of_digits {d : List Char} (hd : ∀ c ∈ d, c.isDigit = true) :
    spanDigits d = (d, []) := by
  induction d with
  | nil => rfl
  | cons x d ih =>
    simp only [List.mem_cons, forall_eq_or_imp] at hd
    have := ih hd.2
    simp only [spanDigits, Prod.mk.injEq] at this ⊢
    simp [List.takeWhile, List.dropWhile, hd.1, this]

theorem parseNumber_fixedDigits (n p : ℕ) : parseNumber (fixedDigits n p) = some (n, -(p : ℤ)) := by
  have hN : ∀ m, ∀ c ∈ natDigits m, c.isDigit = true := fun m c hc => isDigit_of_mem_natDigits hc
  unfold fixedDigits
  split
  · subst p
    simp [parseNumber, spanDigits_of_digits (hN n), digitsVal_natDigits, natDigits_ne_nil]
  · rename_i hp
    have hf : (natDigits (n % 10 ^ p)).length ≤ p :=
      length_natDigits_le (Nat.mod_lt _ (by positivity)) (by omega)
    have hF : ∀ c ∈ List.replicate (p - (natDigits (n % 10 ^ p)).length) '0' ++
        natDigits (n % 10 ^ p), c.isDigit = true := by
      intro c hc
      rcases List.mem_append.mp hc with hc | hc
      · rw [List.eq_of_mem_replicate hc]; rfl
      · exact hN _ c hc
    simp only [parseNumber, spanDigits_append (hN _) (by decide : '.'.isDigit = false),
      spanDigits_of_digits hF]
    simp only [List.length_append, List.length_replicate, Nat.sub_add_cancel hf,
      natDigits_ne_nil, digitsVal_append, digitsVal_replicate_zero, digitsVal_natDigits]
    simp [Nat.div_add_mod', hp]


theorem fixedDigits_cons (n p : ℕ) : ∃ c rest, fixedDigits n p = c :: rest ∧ c.isDigit = true := by
  unfold fixedDigits
  split
  · obtain ⟨c, rest, h⟩ := List.exists_cons_of_ne_nil (natDigits_ne_nil n)
    exact ⟨c, rest, h, isDigit_of_mem_natDigits (h ▸ List.mem_cons_self c rest)⟩
  · obtain ⟨c, rest, h⟩ := List.exists_cons_of_ne_nil (natDigits_ne_nil (n / 10 ^ p))
    exact ⟨c, _, by rw [h]; rfl, isDigit_of_mem_natDigits (h ▸ List.mem_cons_self c rest)⟩

theorem mem_fixedDigits {n p : ℕ} {c : Char} (h : c ∈ fixedDigits n p) :
    c.isDigit = true ∨ c = '.' := by
  unfold fixedDigits at h
  split at h
  · exact .inl (isDigit_of_mem_natDigits h)
  · simp only [List.mem_append, List.mem_cons, List.mem_replicate] at h
    rcases h with h | rfl | ⟨-, rfl⟩ | h
    · exact .inl (isDigit_of_mem_natDigits h)
    · exact .inr rfl
    · exact .inl rfl
    · exact .inl (isDigit_of_mem_natDigits h)

/-- The signed fixed-point text of `n` at `p` places parses as `±n · 10^-p`. -/
theorem parseF64_fixedDigits (neg : Bool) (n p : ℕ) :
    parseF64 ((if neg then ['-'] else []) ++ fixedDigits n p) =
      .ok (decimalToF64 neg n (-(p : ℤ))) := by
  obtain ⟨c, rest, hcr, hc⟩ := fixedDigits_cons n p
  have hc' : ¬ (c = '-' ∨ c = '+') := by
    rintro (rfl | rfl) <;> exact absurd hc (by decide)
  cases neg
  · have : decide (c = '-') = false := decide_eq_false (fun h => hc' (.inl h))
    simp only [Bool.false_eq_true, if_false, List.nil_append, hcr, parseF64, if_neg hc',
      List.cons_ne_nil, this]
    rw [← hcr, parseNumber_fixedDigits]
  · simp only [if_true, List.singleton_append, parseF64, true_or, hcr, List.cons_ne_nil,
      if_false]
    rw [← hcr, parseNumber_fixedDigits]
    rfl

theorem rounds_decimalToF64 (neg : Bool) (n p : ℕ) (h : (n : ℚ) / 10 ^ p < 2 ^ 64) :
    F64.Rounds (decimalToF64 neg n (-(p : ℤ))) ((if neg then -1 else 1) * (n / 10 ^ p)) := by
  unfold decimalToF64
  split
  · obtain rfl : p = 0 := by omega
    have e : ((n * 10 ^ (-((0 : ℕ) : ℤ)).toNat : ℕ) : ℚ) / ((1 : ℕ) : ℚ) = n / 10 ^ 0 := by simp
    rw [← e] at h ⊢
    exact F64.rounds_roundToF64 neg one_pos (F64.lt_two_pow_1023 h)
  · have e : (n : ℚ) / ((10 ^ (- -(p : ℤ)).toNat : ℕ) : ℚ) = n / 10 ^ p := by
      rw [neg_neg, Int.toNat_ofNat]; push_cast; rfl
    rw [← e] at h ⊢
    exact F64.rounds_roundToF64 neg (by positivity) (F64.lt_two_pow_1023 h)

/-! ## Writing the text -/

theorem scaledDecimal_isRNE (s : ℕ) (e : ℤ) (p : ℕ) :
    F64.IsRNE (s * 2 ^ e * (10 ^ p : ℕ)) (F64.scaledDecimal s e p) := by
  unfold F64.scaledDecimal
  split
  · have : ((s * 2 ^ e.toNat * 10 ^ p : ℕ) : ℚ) = s * 2 ^ e * (10 ^ p : ℕ) := by
      push_cast; rw [← zpow_natCast, Int.toNat_of_nonneg ‹_›]
    rw [← this]
    exact F64.isRNE_self _
  · have := F64.roundHalfEven_isRNE (s * 10 ^ p) (Nat.two_pow_pos (-e).toNat)
    rwa [show ((s * 10 ^ p : ℕ) : ℚ) / ((2 ^ (-e).toNat : ℕ) : ℚ) = s * 2 ^ e * (10 ^ p : ℕ) by
      push_cast
      rw [← zpow_natCast (2 : ℚ) (-e).toNat, Int.toNat_of_nonneg (by omega), zpow_neg,
        div_inv_eq_mul]
      ring] at this

/-- A finite value within half a unit of `n · 10^-p` prints as `|n|` at `p` places, behind
its own sign bit. -/
theorem fmtFixed_of_near {x : F64} {neg : Bool} {s : ℕ} {e : ℤ}
    (hx : x.decode = .finite neg s e) (p : ℕ) {n : ℤ} (hn : |x.val * 10 ^ p - n| < 1 / 2) :
    F64.fmtFixed p x = (if neg then ['-'] else []) ++ fixedDigits n.natAbs p := by
  have hnear : |(s : ℚ) * 2 ^ e * (10 ^ p : ℕ) - (n.natAbs : ℕ)| < 1 / 2 := by
    have hxa : |x.val * 10 ^ p| = s * 2 ^ e * (10 ^ p : ℕ) := by
      rw [abs_mul, F64.val_of_decode hx, F64.abs_sign_mul, abs_of_nonneg (by positivity),
        abs_of_nonneg (by positivity)]
      push_cast
      ring
    calc |(s : ℚ) * 2 ^ e * (10 ^ p : ℕ) - (n.natAbs : ℕ)|
          = abs (|x.val * 10 ^ p| - |(n : ℚ)|) := by rw [hxa, Nat.cast_natAbs, Int.cast_abs]
      _ ≤ |x.val * 10 ^ p - n| := abs_abs_sub_abs_le_abs_sub _ _
      _ < 1 / 2 := hn
  simp only [F64.fmtFixed, hx, (scaledDecimal_isRNE s e p).eq_of_near hnear]


/-- A finite value within half a unit of an integer `n` after scaling by `S > 0` has the sign of
`n` unless `n = 0`, so its sign bit in front of `|n|` gives `n` back. -/
theorem sign_mul_natAbs_of_near {x : F64} {neg : Bool} {s : ℕ} {e : ℤ}
    (hx : x.decode = .finite neg s e) {S : ℚ} (hS : 0 < S) {n : ℤ}
    (h : |x.val * S - n| < 1 / 2) : (if neg then -1 else 1) * ((n.natAbs : ℕ) : ℚ) = n := by
  have hv := F64.val_of_decode hx
  obtain ⟨h1, h2⟩ := abs_lt.mp h
  have hpos : (0 : ℚ) ≤ s * 2 ^ e * S := by positivity
  rw [Nat.cast_natAbs, Int.cast_abs]
  rcases lt_trichotomy n 0 with hn | rfl | hn
  · have hn' : (n : ℚ) ≤ -1 := by exact_mod_cast Int.le_sub_one_of_lt hn
    cases neg
    · simp only [Bool.false_eq_true, if_false, one_mul] at hv
      rw [hv] at h2
      linarith
    · simp [abs_of_neg (by exact_mod_cast hn : (n : ℚ) < 0)]
  · simp
  · have hn' : (1 : ℚ) ≤ n := by exact_mod_cast hn
    cases neg
    · simp [abs_of_pos (by exact_mod_cast hn : (0 : ℚ) < n)]
    · simp only [if_true, neg_one_mul] at hv
      rw [hv] at h1
      linarith

end NautilusCore
