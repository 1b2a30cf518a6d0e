import NautilusCore.Float.Binary64
import NautilusCore.Text.Str
import Mathlib.Data.Nat.Digits

/-!
# Decimal text of an `f64`: `format!("{:.p}")` and `str::parse::<f64>`

* `fmtFixed p x` is Rust's `format!("{:.*}", p, x)`: the exact binary value rounded to `p`
  fractional digits (ties to even), a `-` for every value with the sign bit set (also `-0.0`,
  and a negative value that rounds to zero prints `-0.00`), `NaN`, `inf` and `-inf` for the
  special values.
* `parseF64 s` is `<f64 as FromStr>::from_str` (`core::num::dec2flt`): an optional sign, then
  `inf`, `infinity` or `nan` in any case, or `Digit* ['.' Digit*] [('e' | 'E') Sign? Digit+]`
  with at least one mantissa digit. The value is the decimal rounded once to nearest
  (`dec2flt` is correctly rounded); the exponent digits saturate at `0x10000` as in
  `parse_scientific`. The empty string is `Empty`, every other rejected string `Invalid`.
* `F64.display x` is Rust's `format!("{}", x)`: the shortest decimal that reads back as `x`,
  the closest to `x` among those, written without an exponent.
-/

namespace NautilusCore

/-- The decimal digits of `n` (`"0"` for `0`). -/
def natDigits (n : ℕ) : List Char := Nat.toDigits 10 n

theorem digitChar_isDigit {d : ℕ} (h : d < 10) : (Nat.digitChar d).isDigit = true := by
  revert h; revert d; decide

theorem isDigit_of_mem_toDigitsCore (fuel n : ℕ) {ds : List Char}
    (hds : ∀ c ∈ ds, c.isDigit = true) :
    ∀ c ∈ Nat.toDigitsCore 10 fuel n ds, c.isDigit = true := by
  induction fuel generalizing n ds with
  | zero => exact hds
  | succ k ih =>
    have hd : ∀ c ∈ Nat.digitChar (n % 10) :: ds, c.isDigit = true :=
      List.forall_mem_cons.mpr ⟨digitChar_isDigit (Nat.mod_lt n (by norm_num)), hds⟩
    simp only [Nat.toDigitsCore]
    split
    · exact hd
    · exact ih _ hd

theorem isDigit_of_mem_natDigits {n : ℕ} {c : Char} (h : c ∈ natDigits n) : c.isDigit = true :=
  isDigit_of_mem_toDigitsCore _ _ (by simp) c h

/-- `n` written with `p` fractional digits: `⌊n / 10^p⌋`, then `.` and `n mod 10^p` padded
with zeros to `p` digits (no point when `p = 0`). -/
def fixedDigits (n p : ℕ) : List Char :=
  if p = 0 then natDigits n
  else
    let frac := natDigits (n % 10 ^ p)
    natDigits (n / 10 ^ p) ++ '.' :: (List.replicate (p - frac.length) '0' ++ frac)

namespace F64

/-- `|x| · 10^p` rounded to an integer, ties to even, for the finite `±sig · 2^exp`. -/
def scaledDecimal (sig : ℕ) (exp : ℤ) (p : ℕ) : ℕ :=
  if 0 ≤ exp then sig * 2 ^ exp.toNat * 10 ^ p
  else roundHalfEven (sig * 10 ^ p) (2 ^ (-exp).toNat)

/-- `format!("{:.*}", p, x)`. -/
def fmtFixed (p : ℕ) (x : F64) : List Char :=
  match x.decode with
  | .nan => "NaN".data
  | .inf neg => (if neg then "-inf" else "inf").data
  | .finite neg s e => (if neg then ['-'] else []) ++ fixedDigits (scaledDecimal s e p) p

/-- The text of a float holds no whitespace, so it stays one token of `split_whitespace`. -/
theorem fmtFixed_noWhitespace (p : ℕ) (x : F64) :
    ∀ c ∈ fmtFixed p x, isWhitespace c = false := by
  intro c hc
  unfold fmtFixed at hc
  split at hc
  · revert c; decide
  · split at hc <;> revert c <;> decide
  · simp only [fixedDigits, List.mem_append] at hc
    rcases hc with hc | hc
    · split at hc <;> simp_all; decide
    · split at hc
      · exact isWhitespace_of_isDigit (isDigit_of_mem_natDigits hc)
      · simp only [List.mem_append, List.mem_cons, List.mem_replicate] at hc
        rcases hc with hc | rfl | ⟨-, rfl⟩ | hc
        · exact isWhitespace_of_isDigit (isDigit_of_mem_natDigits hc)
        · decide
        · decide
        · exact isWhitespace_of_isDigit (isDigit_of_mem_natDigits hc)

end F64

/-- `core::num::dec2flt::FloatErrorKind`. -/
inductive FloatErrorKind where
  | empty
  | invalid
  deriving DecidableEq, Repr

/-- `Debug` of a `ParseFloatError`. -/
def FloatErrorKind.debug : FloatErrorKind → String
  | .empty => "ParseFloatError \x7b kind: Empty \x7d"
  | .invalid => "ParseFloatError \x7b kind: Invalid \x7d"

/-- The value of the exponent digits, which stops growing once it reaches `0x10000`
(`parse_scientific`). -/
def expDigitsVal (ds : List Char) : ℕ :=
  ds.foldl (fun acc c => if acc < 0x10000 then 10 * acc + (c.toNat - 48) else acc) 0

/-- `parse_scientific`, after the `e`: an optional sign and at least one digit, which must end
the string. -/
def parseExponent (s : List Char) : Option ℤ :=
  let (neg, body) := match s with
    | '-' :: r => (true, r)
    | '+' :: r => (false, r)
    | r => (false, r)
  let (ds, rest) := spanDigits body
  if ds = [] ∨ rest ≠ [] then none
  else some (if neg then -(expDigitsVal ds : ℤ) else expDigitsVal ds)

/-- `parse_number`: the decimal mantissa (all its digits) and exponent of the whole string. -/
def parseNumber (s : List Char) : Option (ℕ × ℤ) :=
  let (intDs, r1) := spanDigits s
  let (fracDs, r2) := match r1 with
    | '.' :: r => spanDigits r
    | r => ([], r)
  if intDs.length + fracDs.length = 0 then none
  else
    let m := digitsVal (intDs ++ fracDs)
    match r2 with
    | [] => some (m, -(fracDs.length : ℤ))
    | c :: r =>
      if c = 'e' ∨ c = 'E' then (parseExponent r).map fun x => (m, x - fracDs.length) else none

/-- `parse_inf_nan`: `nan`, `inf` or `infinity`, in any case. -/
def parseInfNan (s : List Char) (neg : Bool) : Option F64 :=
  let t := s.map Char.toLower
  if t = "nan".data then some F64.nan
  else if t = "inf".data ∨ t = "infinity".data then some (F64.inf neg)
  else none

/-- The binary64 nearest `(-1)^neg · m · 10^x`. -/
def decimalToF64 (neg : Bool) (m : ℕ) (x : ℤ) : F64 :=
  if 0 ≤ x then F64.roundToF64 neg (m * 10 ^ x.toNat) 1
  else F64.roundToF64 neg m (10 ^ (-x).toNat)

/-- `<f64 as FromStr>::from_str` (`dec2flt`). -/
def parseF64 (s : List Char) : Except FloatErrorKind F64 :=
  match s with
  | [] => .error .empty
  | c :: rest =>
    let neg := c = '-'
    let body := if c = '-' ∨ c = '+' then rest else c :: rest
    if body = [] then .error .invalid
    else match parseNumber body with
      | some (m, x) => .ok (decimalToF64 neg m x)
      | none => match parseInfNan body neg with
        | some v => .ok v
        | none => .error .invalid

namespace F64

/-! ## `Display` -/

/-- `⌊log10 (n / d)⌋` for positive `n` and `d`, from the digit count of an integer quotient. -/
def floorLog10 (n d : ℕ) : ℤ :=
  if d ≤ n then ((natDigits (n / d)).length : ℤ) - 1
  else -((natDigits ((d + n - 1) / n - 1)).length : ℤ)

/-- `compare (c · 10^j) (b · 2^f)`, in natural numbers. -/
def cmpPow (c : ℕ) (j : ℤ) (b : ℕ) (f : ℤ) : Ordering :=
  compare (c * 10 ^ j.toNat * 2 ^ (-f).toNat) (b * 2 ^ f.toNat * 10 ^ (-j).toNat)

/-- `flt2dec::strategy::grisu::format_shortest` (with its Dragon fallback) on `s · 2^e`,
`s > 0`: the decimal `c · 10^j` with the fewest digits that rounds back to `s · 2^e`, and the
closer of the two candidates when both do. It lies within half the gap to each neighbour
(measured here in quarters of `2^e`; the gap below is halved at the bottom of a binade), the
ends included when `s` is even, as rounding to nearest, ties to even, decides. -/
def shortest (s : ℕ) (e : ℤ) : ℕ × ℤ :=
  let f := e - 2
  let lo := if s = 2 ^ 52 ∧ -1074 < e then 4 * s - 1 else 4 * s - 2
  let hi := 4 * s + 2
  let incl := s % 2 == 0
  let inside (c : ℕ) (j : ℤ) : Bool :=
    (cmpPow c j lo f == .gt || incl && cmpPow c j lo f == .eq) &&
      (cmpPow c j hi f == .lt || incl && cmpPow c j hi f == .eq)
  let E := floorLog10 (4 * s * 2 ^ f.toNat) (2 ^ (-f).toNat)
  -- with `k` digits: `⌊v / 10^j⌋` and the next multiple of `10^j`
  let pick (k : ℕ) : Option (ℕ × ℤ) :=
    let j := E + 1 - k
    let c := 4 * s * 2 ^ f.toNat * 10 ^ (-j).toNat / (2 ^ (-f).toNat * 10 ^ j.toNat)
    if inside c j && (!inside (c + 1) j || cmpPow (2 * c + 1) j (8 * s) f != .lt) then
      some (c, j)
    else if inside (c + 1) j then some (c + 1, j) else none
  ((List.range 17).findSome? fun k => pick (k + 1)).getD (0, 0)

/-- `flt2dec::digits_to_dec_str` with no forced fractional digits: the digits `buf` read as
`0.buf · 10^x`, written without an exponent. -/
def decStr (buf : List Char) (x : ℤ) : List Char :=
  if x ≤ 0 then '0' :: '.' :: (List.replicate (-x).toNat '0' ++ buf)
  else if x.toNat < buf.length then buf.take x.toNat ++ '.' :: buf.drop x.toNat
  else buf ++ List.replicate (x.toNat - buf.length) '0'

/-- `format!("{}", x)` (`impl Display for f64`, `float_to_decimal_common_shortest`): `NaN`,
`inf`, `-inf`, a `-` for every value with the sign bit set (`-0.0` prints `-0`), and the
shortest round-tripping digits without trailing zeros. -/
def display (x : F64) : List Char :=
  match x.decode with
  | .nan => "NaN".data
  | .inf neg => (if neg then "-inf" else "inf").data
  | .finite neg s e => (if neg then ['-'] else []) ++
      if s = 0 then ['0']
      else
        let (c, j) := shortest s e
        let ds := natDigits c
        decStr (ds.reverse.dropWhile (· = '0')).reverse (ds.length + j)

example : display (ofInt 10000000000) = "10000000000".data := by decide
example : display (add (decimalToF64 false 1 (-1)) (decimalToF64 false 2 (-1))) =
    "0.30000000000000004".data := by decide

end F64

end NautilusCore
