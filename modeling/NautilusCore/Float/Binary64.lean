import NautilusCore.Rust.Basic

/-!
# IEEE 754 binary64 (`f64`)

An `f64` is its 64-bit pattern. `F64.decode` reads the pattern as a finite value
`(-1)^neg · sig · 2^exp`, an infinity or a NaN (IEEE 754 §3.4). `roundToF64 neg N D` is the
binary64 nearest to `(-1)^neg · N / D`, ties to the even significand, with overflow to the
infinity of that sign and a zero of that sign for `N = 0` (§4.3.1, §7.4). Every operation the
modelled code uses is the exact result rounded once by it:

* `F64.mul`, `F64.div`: `*` and `/` (§5.4.1, with the special cases of §7.2 and §7.3);
* `F64.add`, `F64.sub`, `F64.neg`: `+`, `-` and unary `-` (§5.4.1, §5.5.1, the signs of zero
  sums of §6.3);
* `F64.ofInt`: Rust's `i64 as f64` (round to nearest);
* `F64.round`: `f64::round`, half away from zero, keeping the sign of a zero;
* `F64.toI64`: Rust's `f64 as i64`, truncating and saturating, with `NaN` to `0`;
* `F64.lt`, `F64.le`, `F64.eq`: IEEE comparisons (`NaN` unordered, `-0.0 == 0.0`).

Nothing here computes through `ℚ`, so that the model runs under `decide`; the rational reading
and its lemmas are in `NautilusCore.Float.Rounding`.
-/

namespace NautilusCore

/-- A value of Rust's `f64`, as its bit pattern. -/
structure F64 where
  bits : UInt64
  deriving DecidableEq

namespace F64

/-- What a bit pattern stands for: `finite neg sig exp` is `(-1)^neg · sig · 2^exp`. -/
inductive Decoded where
  | finite (neg : Bool) (sig : ℕ) (exp : ℤ)
  | inf (neg : Bool)
  | nan
  deriving DecidableEq, Repr

/-- The pattern with sign `neg`, biased exponent `be` and fraction `frac`. -/
def ofFields (neg : Bool) (be frac : ℕ) : F64 :=
  ⟨UInt64.ofNat ((if neg then 2 ^ 63 else 0) + be * 2 ^ 52 + frac)⟩

/-- IEEE 754 §3.4: biased exponent `2047` is an infinity or a NaN, `0` a zero or a subnormal
`frac · 2^-1074`, anything else the normal `(2^52 + frac) · 2^(be - 1075)`. -/
def decode (x : F64) : Decoded :=
  let w : ℕ := x.bits.toNat
  let neg := decide (2 ^ 63 ≤ w)
  let be : ℕ := w / 2 ^ 52 % 2 ^ 11
  let frac : ℕ := w % 2 ^ 52
  if be = 2047 then (if frac = 0 then .inf neg else .nan)
  else if be = 0 then .finite neg frac (-1074)
  else .finite neg (2 ^ 52 + frac) ((be : ℤ) - 1075)

/-- The zero of sign `neg`. -/
def zero (neg : Bool) : F64 := ofFields neg 0 0

/-- The infinity of sign `neg`. -/
def inf (neg : Bool) : F64 := ofFields neg 2047 0

/-- `f64::NAN`, the quiet NaN `0x7ff8000000000000`. -/
def nan : F64 := ofFields false 2047 (2 ^ 51)

/-- The finite value `(-1)^neg · sig · 2^exp` for `sig < 2^53`, with `exp = -1074` when
`sig < 2^52` (zero and subnormals) and `-1074 ≤ exp ≤ 971` otherwise. -/
def encodeFinite (neg : Bool) (sig : ℕ) (exp : ℤ) : F64 :=
  if sig < 2 ^ 52 then ofFields neg 0 sig else ofFields neg (exp + 1075).toNat (sig - 2 ^ 52)

/-! ## Rounding a rational -/

/-- `⌊log₂ n⌋` (`0` for `n ≤ 1`), by halving; `n` halvings always suffice. -/
def log2 (n : ℕ) : ℕ := go n n 0
where
  /-- Halve `n` at most `fuel` times, counting in `acc`. -/
  go : ℕ → ℕ → ℕ → ℕ
    | 0, _, acc => acc
    | fuel + 1, n, acc => if n < 2 then acc else go fuel (n / 2) (acc + 1)

/-- Whether `N / D < 2^k`. -/
def ltPow2 (N D : ℕ) (k : ℤ) : Bool :=
  if 0 ≤ k then N < D * 2 ^ k.toNat else N * 2 ^ (-k).toNat < D

/-- `⌊log₂ (N / D)⌋` for `N, D > 0`: the difference of the bit lengths, or one less. -/
def floorLog2 (N D : ℕ) : ℤ :=
  let k : ℤ := (log2 N : ℤ) - log2 D
  if ltPow2 N D k then k - 1 else k

/-- The integer nearest `n / d`, ties to even. -/
def roundHalfEven (n d : ℕ) : ℕ :=
  let q := n / d
  let r := n % d
  if d < 2 * r ∨ (2 * r = d ∧ q % 2 = 1) then q + 1 else q

/-- The integer nearest `N / (D · 2^e)`, ties to even. -/
def scaledRound (N D : ℕ) (e : ℤ) : ℕ :=
  if e < 0 then roundHalfEven (N * 2 ^ (-e).toNat) D else roundHalfEven N (D * 2 ^ e.toNat)

/-- The exponent of the last significand digit of `N / D` in binary64: 52 binary places below
its leading digit, but not below the subnormal exponent `-1074`. -/
def quantum (N D : ℕ) : ℤ := max (floorLog2 N D - 52) (-1074)

/-- Round-to-nearest, ties-to-even, of `(-1)^neg · N / D` (`D > 0`). A significand that
rounds up to `2^53` moves to the next exponent; past exponent `971` the result is the infinity
of its sign. -/
def roundToF64 (neg : Bool) (N D : ℕ) : F64 :=
  if N = 0 then zero neg
  else
    let e := quantum N D
    let m := scaledRound N D e
    if m = 2 ^ 53 then (if 971 < e + 1 then inf neg else encodeFinite neg (2 ^ 52) (e + 1))
    else if 971 < e then inf neg
    else encodeFinite neg m e

/-- `(-1)^neg · sig · 2^exp / den`, rounded. -/
def roundScaled (neg : Bool) (sig : ℕ) (exp : ℤ) (den : ℕ) : F64 :=
  if 0 ≤ exp then roundToF64 neg (sig * 2 ^ exp.toNat) den
  else roundToF64 neg sig (den * 2 ^ (-exp).toNat)

/-! ## Operations -/

/-- IEEE multiplication: the sign is the exclusive or of the signs, `0 · ∞` is a NaN. -/
def mul (x y : F64) : F64 :=
  match x.decode, y.decode with
  | .nan, _ => nan
  | _, .nan => nan
  | .inf a, .inf b => inf (a != b)
  | .inf a, .finite b s _ => if s = 0 then nan else inf (a != b)
  | .finite a s _, .inf b => if s = 0 then nan else inf (a != b)
  | .finite a s e, .finite b t f => roundScaled (a != b) (s * t) (e + f) 1

/-- IEEE division: `∞/∞` and `0/0` are NaNs, a nonzero over zero an infinity, a finite value
over an infinity a zero. -/
def div (x y : F64) : F64 :=
  match x.decode, y.decode with
  | .nan, _ => nan
  | _, .nan => nan
  | .inf _, .inf _ => nan
  | .inf a, .finite b _ _ => inf (a != b)
  | .finite a _ _, .inf b => zero (a != b)
  | .finite a s e, .finite b t f =>
    if t = 0 then (if s = 0 then nan else inf (a != b))
    else roundScaled (a != b) s (e - f) t

/-- Rust's `z as f64` for an integer `z`. -/
def ofInt (z : ℤ) : F64 := roundToF64 (decide (z < 0)) z.natAbs 1

/-- `f64::round`: the nearest integer, half-way cases away from zero. A value with a
nonnegative exponent is already an integer; otherwise the magnitude is
`⌊(2 · sig + 2^k) / 2^(k + 1)⌋` for `k = -exp`, and the sign is kept (`-0.3` gives `-0.0`). -/
def round (x : F64) : F64 :=
  match x.decode with
  | .finite neg s e =>
    if 0 ≤ e then x else roundToF64 neg ((2 * s + 2 ^ (-e).toNat) / 2 ^ ((-e).toNat + 1)) 1
  | _ => x

/-- The integer `±sig · 2^exp` truncated toward zero. -/
def truncInt (neg : Bool) (sig : ℕ) (exp : ℤ) : ℤ :=
  let m : ℕ := if 0 ≤ exp then sig * 2 ^ exp.toNat else sig / 2 ^ (-exp).toNat
  if neg then -(m : ℤ) else m

/-- Rust's `x as i64`: truncation toward zero, saturating at the bounds, `NaN` to `0`. -/
def toI64 (x : F64) : I64 :=
  match x.decode with
  | .nan => I64.zero
  | .inf neg => if neg then I64.min else I64.saturate i64Max
  | .finite neg s e => I64.saturate (truncInt neg s e)

/-- `±sig · 2^k` for `k ≥ 0`, the integer two finite values are compared by. -/
def scaledInt (neg : Bool) (sig : ℕ) (k : ℤ) : ℤ :=
  if neg then -((sig * 2 ^ k.toNat : ℕ) : ℤ) else ((sig * 2 ^ k.toNat : ℕ) : ℤ)

/-- IEEE negation, `-x`: the sign bit flipped, which is adding `2^63` modulo `2^64`. -/
def neg (x : F64) : F64 := ⟨x.bits + 0x8000000000000000⟩

/-- IEEE addition: the exact sum rounded once. `∞ + (-∞)` is a NaN, and an exact zero sum is
`-0.0` only when both operands are `-0.0` (§6.3). -/
def add (x y : F64) : F64 :=
  match x.decode, y.decode with
  | .nan, _ => nan
  | _, .nan => nan
  | .inf a, .inf b => if a = b then inf a else nan
  | .inf a, .finite .. => inf a
  | .finite .., .inf b => inf b
  | .finite a s e, .finite b t f =>
    let z := scaledInt a s (e - min e f) + scaledInt b t (f - min e f)
    if z = 0 then zero (a && b) else roundScaled (decide (z < 0)) z.natAbs (min e f) 1

/-- IEEE subtraction, `x + (-y)`. -/
def sub (x y : F64) : F64 := add x (neg y)

example : add (ofInt (2 ^ 53)) (ofInt 1) = ofInt (2 ^ 53) := by decide

example : sub (ofInt 1) (ofInt 1) = zero false ∧ add (zero true) (zero true) = zero true := by
  decide

/-- IEEE `<`. -/
def lt (x y : F64) : Bool :=
  match x.decode, y.decode with
  | .finite a s e, .finite b t f =>
    decide (scaledInt a s (e - min e f) < scaledInt b t (f - min e f))
  | .inf a, .inf b => a && !b
  | .inf a, .finite .. => a
  | .finite .., .inf b => !b
  | _, _ => false

/-- IEEE `<=`. -/
def le (x y : F64) : Bool :=
  match x.decode, y.decode with
  | .finite a s e, .finite b t f =>
    decide (scaledInt a s (e - min e f) ≤ scaledInt b t (f - min e f))
  | .inf a, .inf b => a || !b
  | .inf a, .finite .. => a
  | .finite .., .inf b => !b
  | _, _ => false

/-- IEEE `==`: `NaN` equals nothing, the two zeros are equal. -/
def eq (x y : F64) : Bool :=
  match x.decode, y.decode with
  | .finite a s e, .finite b t f =>
    decide (scaledInt a s (e - min e f) = scaledInt b t (f - min e f))
  | .inf a, .inf b => a == b
  | _, _ => false

/-- `f64::is_nan`. -/
def isNan (x : F64) : Bool := x.decode matches .nan

/-- `f64::is_infinite`. -/
def isInfinite (x : F64) : Bool := x.decode matches .inf _

theorem decode_zero (neg : Bool) : (zero neg).decode = .finite neg 0 (-1074) := by
  cases neg <;> rfl

/-- `x == 0.0` holds exactly for the two zeros. -/
theorem eq_zero_iff (x : F64) : eq x (zero false) = true ↔ ∃ neg e, x.decode = .finite neg 0 e := by
  unfold eq
  rw [decode_zero]
  cases x.decode with
  | finite neg s e => cases neg <;> simp [scaledInt]
  | inf neg => simp
  | nan => simp

end F64

end NautilusCore
