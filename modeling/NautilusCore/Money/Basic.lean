import NautilusCore.Float.Text
import NautilusCore.Text.Str

/-!
# `Money` (`model/src/types/money.rs`)

Models of the `Money` type and its methods and trait implementations, with the helpers they
call from files that are not in the source (`types/currency.rs`, `types/fixed.rs`,
`nautilus_core::correctness`, `rust_decimal`), each marked where it is modelled from the spec.

The build profile `prof` enters where the Rust code uses plain integer operators: `-self.raw`
in `Neg`, `rounded * pow2` and `i64::pow` in `f64_to_fixed_i64`, and `FIXED_PRECISION -
precision` and `i64::pow` in `as_decimal`. `Add`, `Sub`, `AddAssign` and `SubAssign` use
`checked_add`/`checked_sub` and do not depend on it.

Currency lookups (`Currency::from_str`) go through `reg`, the process-wide registry of the
spec, which maps a code to its currency or to an error message.
-/

namespace NautilusCore

/-- Modelled from the spec: `Currency` (`types/currency.rs` is not in the source), a code and
a number of decimal places, with equality on both. Its `Display` prints the code. -/
structure Currency where
  code : String
  precision : UInt8
  deriving DecidableEq, Repr

/-- Modelled from the spec: `FIXED_PRECISION` (`types/fixed.rs`), the fixed scale `9`. -/
def fixedPrecision : UInt8 := 9

/-- Modelled from the spec: `FIXED_SCALAR`, the `f64` `1_000_000_000.0`. -/
def fixedScalar : F64 := F64.ofInt 1000000000

/-- `MONEY_MAX` (line 38), the `f64` `9_223_372_036.0`. -/
def moneyMax : F64 := F64.ofInt 9223372036

/-- `MONEY_MIN` (line 41), the `f64` `-9_223_372_036.0`. -/
def moneyMin : F64 := F64.ofInt (-9223372036)

/-- `FAILED` of `nautilus_core::correctness` (not in the source). -/
def failed : String := "Condition failed"

/-- `10_i64`. -/
def I64.ten : I64 := ⟨10, by norm_num [i64Min], by norm_num [i64Max]⟩

/-- Modelled on `check_in_range_inclusive_f64` of `nautilus_core::correctness`, which is not in
the source: a NaN or an infinity fails with its text, then a value outside `[l, r]` fails with
the range and the value, each printed by `Display`. -/
def checkInRangeInclusiveF64 (value l r : F64) (param : String) : Except String Unit :=
  if value.isNan || value.isInfinite then
    .error ("invalid f64 for '" ++ param ++ "', was " ++ ⟨value.display⟩)
  else if F64.le l value && F64.le value r then .ok ()
  else .error ("invalid f64 for '" ++ param ++ "' not in range [" ++ ⟨l.display⟩ ++ ", " ++
    ⟨r.display⟩ ++ "], was " ++ ⟨value.display⟩)

/-- Modelled from the spec: `f64_to_fixed_i64` (`types/fixed.rs`) asserts
`precision ≤ FIXED_PRECISION`, scales `value` by `10^precision` in `f64`, rounds with
`f64::round`, converts with `as i64` and multiplies by `10^(FIXED_PRECISION - precision)`. -/
def f64ToFixedI64 (prof : Profile) (value : F64) (precision : UInt8) : Run I64 := do
  if ¬ precision ≤ fixedPrecision then .panic "assertion failed: precision <= FIXED_PRECISION"
  else
    let pow1 ← I64.pow prof I64.ten precision.toNat
    let pow2 ← I64.pow prof I64.ten (fixedPrecision - precision).toNat
    let rounded := (F64.mul value (F64.ofInt pow1.val)).round.toI64
    I64.mul prof rounded pow2

/-- Modelled from the spec: `fixed_i64_to_f64` (`types/fixed.rs`), `(value as f64) /
FIXED_SCALAR`. -/
def fixedI64ToF64 (value : I64) : F64 := F64.div (F64.ofInt value.val) fixedScalar

/-- Modelled from the spec (an exact decimal): a `rust_decimal::Decimal`, the value
`mantissa / 10^scale`. -/
structure Decimal where
  mantissa : ℤ
  scale : ℕ
  deriving DecidableEq

/-- The value of a `Decimal`, which its `PartialEq` compares. -/
def Decimal.val (d : Decimal) : ℚ := d.mantissa / 10 ^ d.scale

/-- `Decimal::from_i128_with_scale`, which panics on a scale above `28` or a mantissa of more
than 96 bits. -/
def Decimal.fromI128WithScale (num : ℤ) (scale : ℕ) : Run Decimal :=
  if 28 < scale then .panic "Scale exceeds the maximum precision allowed"
  else if 2 ^ 96 ≤ num.natAbs then .panic "Number exceeds maximum value that can be represented"
  else .ret ⟨num, scale⟩

/-- `Money` (lines 53–59): a raw amount at the fixed scale and its currency. -/
structure Money where
  raw : I64
  currency : Currency
  deriving DecidableEq

namespace Money

/-- `Money::new_checked` (lines 73–80). -/
def newChecked (prof : Profile) (amount : F64) (currency : Currency) :
    Run (Except String Money) :=
  match checkInRangeInclusiveF64 amount moneyMin moneyMax "amount" with
  | .error e => .ret (.error e)
  | .ok () => do
    let raw ← f64ToFixedI64 prof amount currency.precision
    pure (.ok ⟨raw, currency⟩)

/-- `Money::new` (lines 88–90): `new_checked(...).expect(FAILED)`. -/
def new (prof : Profile) (amount : F64) (currency : Currency) : Run Money := do
  expectOk (← newChecked prof amount currency) failed id

/-- `Money::from_raw` (lines 94–96). -/
def fromRaw (raw : I64) (currency : Currency) : Money := ⟨raw, currency⟩

/-- `Money::is_zero` (lines 100–102). -/
def isZero (self : Money) : Bool := self.raw.val == 0

/-- `Money::as_f64` (lines 106–108), also `impl From<Money> for f64` (lines 166–176). -/
def asF64 (self : Money) : F64 := fixedI64ToF64 self.raw

/-- `Money::as_decimal` (lines 112–117). -/
def asDecimal (prof : Profile) (self : Money) : Run Decimal := do
  let precision := self.currency.precision
  let k ← u8Sub prof fixedPrecision precision
  let pow ← I64.pow prof I64.ten k.toNat
  let rescaledRaw ← I64.div self.raw pow
  Decimal.fromI128WithScale rescaledRaw.val precision.toNat

/-- `Money::to_formatted_string` (lines 121–125). -/
def toFormattedString (self : Money) : String :=
  ⟨separateWithUnderscores (F64.fmtFixed self.currency.precision.toNat self.asF64)⟩ ++ " " ++
    self.currency.code

/-- `impl Display for Money` (lines 339–349): `{:.*} {}` with the currency's code. -/
def toString (self : Money) : String :=
  ⟨F64.fmtFixed self.currency.precision.toNat self.asF64⟩ ++ " " ++ self.currency.code

/-- `impl Debug for Money` (lines 326–337): `Money({:.*}, {})`. -/
def debug (self : Money) : String :=
  "Money(" ++ ⟨F64.fmtFixed self.currency.precision.toNat self.asF64⟩ ++ ", " ++
    self.currency.code ++ ")"

/-- `impl FromStr for Money` (lines 128–152). -/
def fromStr (reg : String → Except String Currency) (prof : Profile) (value : String) :
    Run (Except String Money) :=
  match splitWhitespace value.data with
  | [amountTok, currencyTok] =>
    match parseF64 (removeChar '_' amountTok) with
    | .error e => .ret (.error ("Error parsing amount '" ++ ⟨amountTok⟩ ++ "' as `f64`: " ++
        e.debug))
    | .ok amount =>
      match reg ⟨currencyTok⟩ with
      | .error e => .ret (.error e)
      | .ok currency => Except.ok <$> new prof amount currency
  | _ => .ret (.error ("Error invalid input format '" ++ value ++
      "'. Expected '<amount> <currency>'"))

/-- `impl From<&str> for Money` (lines 154–158): `from_str(value).unwrap()`. -/
def ofStr (reg : String → Except String Currency) (prof : Profile) (value : String) :
    Run Money := do
  unwrapOk (← fromStr reg prof value)

/-- `impl Serialize for Money` (lines 351–358): the `Display` string. -/
def serialize (self : Money) : String := self.toString

/-- `impl Deserialize for Money` (lines 360–368): `Money::from` of the string. -/
def deserialize (reg : String → Except String Currency) (prof : Profile) (s : String) :
    Run Money :=
  ofStr reg prof s

/-! ## Equality and order -/

/-- `impl PartialEq for Money` (lines 185–189). -/
def eq (self other : Money) : Bool :=
  self.raw.val == other.raw.val && self.currency == other.currency

/-- `impl Hash for Money` (lines 178–183): what is fed to the hasher, the raw value and then
the currency. -/
def hashInput (self : Money) : ℤ × Currency := (self.raw.val, self.currency)

/-- `impl Ord for Money` (lines 217–222). -/
def cmp (self other : Money) : Run Ordering := do
  assertEq self.currency other.currency none
  pure (compare self.raw.val other.raw.val)

/-- `PartialOrd::partial_cmp` (lines 192–194): `Some(self.cmp(other))`. -/
def partialCmp (self other : Money) : Run (Option Ordering) :=
  some <$> self.cmp other

/-- The body shared by `lt`, `le`, `gt` and `ge` (lines 196–214): assert equal currencies, then
compare the raw values by `rel`. -/
def compareBy (rel : ℤ → ℤ → Bool) (self other : Money) : Run Bool := do
  assertEq self.currency other.currency none
  pure (rel self.raw.val other.raw.val)

/-- `PartialOrd::lt` (lines 196–199). -/
def lt (self other : Money) : Run Bool := compareBy (fun a b => decide (a < b)) self other

/-- `PartialOrd::le` (lines 201–204). -/
def le (self other : Money) : Run Bool := compareBy (fun a b => decide (a ≤ b)) self other

/-- `PartialOrd::gt` (lines 206–209). -/
def gt (self other : Money) : Run Bool := compareBy (fun a b => decide (a > b)) self other

/-- `PartialOrd::ge` (lines 211–214). -/
def ge (self other : Money) : Run Bool := compareBy (fun a b => decide (a ≥ b)) self other

theorem eq_iff_raw_val {x m : Money} : x = m ↔ x.raw.val = m.raw.val ∧ x.currency = m.currency :=
  ⟨fun h => h ▸ ⟨rfl, rfl⟩, fun ⟨h1, h2⟩ => by
    obtain ⟨r, c⟩ := x; obtain ⟨r', c'⟩ := m
    cases I64.ext_val h1; cases h2; rfl⟩

/-! ## Arithmetic -/

/-- `impl Neg for Money` (lines 224–232): `-self.raw` with the profile's integer `-`. -/
def neg (prof : Profile) (self : Money) : Run Money := do
  let raw ← I64.neg prof self.raw
  pure ⟨raw, self.currency⟩

/-- The body shared by `Add`, `Sub`, `AddAssign` and `SubAssign` (lines 234–296): assert equal
currencies with the message `mismatch`, apply the checked operation `op` to the raw values,
panicking with `overflow` when it fails, and keep `self`'s currency. -/
def combine (op : I64 → I64 → Option I64) (mismatch overflow : String) (self rhs : Money) :
    Run Money := do
  assertEq self.currency rhs.currency (some mismatch)
  let raw ← expectSome (op self.raw rhs.raw) overflow
  pure ⟨raw, self.currency⟩

/-- The currency-mismatch message of `Add` and `AddAssign`. -/
def addMismatch (self rhs : Money) : String :=
  "Currency mismatch: cannot add " ++ rhs.currency.code ++ " to " ++ self.currency.code

/-- The currency-mismatch message of `Sub` and `SubAssign`. -/
def subMismatch (self rhs : Money) : String :=
  "Currency mismatch: cannot subtract " ++ rhs.currency.code ++ " from " ++ self.currency.code

/-- `impl Add for Money` (lines 234–250). -/
def add (self rhs : Money) : Run Money :=
  combine I64.checkedAdd (addMismatch self rhs) "Overflow occurred when adding `Money`" self rhs

/-- `impl Sub for Money` (lines 252–268). -/
def sub (self rhs : Money) : Run Money :=
  combine I64.checkedSub (subMismatch self rhs) "Underflow occurred when subtracting `Money`"
    self rhs

/-- A method on `&mut self` whose last statement writes `body`'s value to `*self`: what the
call does, and the value it leaves behind, which is the old one when `body` panics. -/
def assign (self : Money) (body : Run Money) : Run Unit × Money :=
  match body with
  | .ret v => (.ret (), v)
  | .panic m => (.panic m, self)

/-- `impl AddAssign for Money` (lines 270–282). -/
def addAssign (self other : Money) : Run Unit × Money :=
  assign self
    (combine I64.checkedAdd (addMismatch self other) "Overflow occurred when adding `Money`"
      self other)

/-- `impl SubAssign for Money` (lines 284–296). -/
def subAssign (self other : Money) : Run Unit × Money :=
  assign self
    (combine I64.checkedSub (subMismatch self other) "Underflow occurred when subtracting `Money`"
      self other)

/-! ## Arithmetic with an `f64` -/

/-- `impl Add<f64> for Money` (lines 298–303): `self.as_f64() + rhs`. -/
def addF64 (self : Money) (rhs : F64) : F64 := F64.add self.asF64 rhs

/-- `impl Sub<f64> for Money` (lines 305–310): `self.as_f64() - rhs`. -/
def subF64 (self : Money) (rhs : F64) : F64 := F64.sub self.asF64 rhs

/-- `impl Mul<f64> for Money` (lines 312–317): `self.as_f64() * rhs`. -/
def mulF64 (self : Money) (rhs : F64) : F64 := F64.mul self.asF64 rhs

/-- `impl Div<f64> for Money` (lines 319–324): `self.as_f64() / rhs`. -/
def divF64 (self : Money) (rhs : F64) : F64 := F64.div self.asF64 rhs

end Money

end NautilusCore
