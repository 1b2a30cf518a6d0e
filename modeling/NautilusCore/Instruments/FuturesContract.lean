import NautilusCore.Money.Basic
import NautilusCore.Tardis.Parse

/-!
# `FuturesContract` (`model/src/instruments/futures_contract.rs`)

Models of `FuturesContract`, its validating constructor `new_checked` (lines 76–131) and the
`expect`ing `new` (lines 135–180), its `PartialEq` and `Hash` (lines 183–195) and its
`Instrument` implementation (lines 197–316), with the `nautilus_core::correctness` checks and
the value types it reads (`Price`, `Quantity`, `InstrumentId`), which are not in the source and
are modelled from the spec. The arguments of `new_checked` are gathered in `Args`, under the
source's names.

Results:
* `newChecked_eq_ok_iff`: `new_checked` returns `Ok` exactly when the four checks of the spec
  hold (`Args.Valid`), and then returns the contract `ofArgs` builds, with `size_precision = 0`,
  `size_increment = 1`, the margins defaulting to zero and `min_quantity` to `1`;
* `newChecked_error`: otherwise it returns the error of the first failing check, in the spec's
  order, and the error names the field that check reads;
* `valid_of_newChecked`, `info_of_valid`: every contract `new_checked` returns satisfies the
  invariant `FuturesContract.Valid`, on which the `Instrument` accessors agree with the fields;
* `new_eq_ret_iff`: `new` returns exactly on valid arguments, that contract, and panics
  otherwise;
* `eq_iff_id`, `eq_equivalence`, `hashInput_eq_of_eq`: equality and hashing look only at `id`.

**Deviation from the spec (field name).** The exchange code is checked under the name
`stringify!(isin)` (line 98): a blank exchange code is reported as an invalid `'isin'`, a field
this type does not have, and the error never names `exchange` (`newChecked_blank_exchange`).
-/

namespace NautilusCore

/-! ## Value types and checks -/

/-- Modelled from the spec: `AssetClass` (`enums.rs`), which `new_checked` stores as given. -/
inductive AssetClass where
  | fx
  | equity
  | commodity
  | debt
  | index
  | cryptocurrency
  | alternative
  deriving DecidableEq, Repr

/-- `InstrumentClass`, the variant `FuturesContract` reports. -/
inductive InstrumentClass where
  | future
  deriving DecidableEq, Repr

/-- Modelled from the spec: a `Price` (`types/price.rs`), a raw value at the fixed scale and
the number of decimal places it is shown with. -/
structure Price where
  raw : I64
  precision : UInt8
  deriving DecidableEq

/-- Modelled from the spec: a `Quantity` (`types/quantity.rs`), an unsigned raw value at the
fixed scale and its precision. -/
structure Quantity where
  raw : UInt64
  precision : UInt8
  deriving DecidableEq

/-- Modelled from the spec: `Quantity::from(1)`, one unit at precision `0`. -/
def Quantity.one : Quantity := ⟨1000000000, 0⟩

/-- `Decimal::from(0)`, the default margin. -/
def Decimal.zero : Decimal := ⟨0, 0⟩

/-- A string `check_valid_string` accepts: it has a character that is not whitespace (it is not
empty once trimmed), and all its characters are ASCII. -/
def ValidString (s : String) : Prop :=
  (∃ c ∈ s.data, isWhitespace c = false) ∧ ∀ c ∈ s.data, c.toNat < 128

/-- The error text names the field `f`, between quotes. -/
def NamesField (e f : String) : Prop := ("'" ++ f ++ "'").data <:+: e.data

instance (e f : String) : Decidable (NamesField e f) :=
  inferInstanceAs (Decidable (List.IsInfix _ _))

/-- Modelled on `check_valid_string` of `nautilus_core::correctness`, which is not in the
source. The yardstick is that function, not the spec, which asks `underlying` only to be
non-empty: it rejects an empty string, one of whitespace only and one with a non-ASCII
character, in that order, each time naming `param`. -/
def checkValidString (s param : String) : Except String Unit :=
  if s.data = [] then .error ("invalid string for '" ++ param ++ "', was empty")
  else if s.data.all isWhitespace then
    .error ("invalid string for '" ++ param ++ "', was all whitespace")
  else if ¬ s.data.all (fun c => decide (c.toNat < 128)) then
    .error ("invalid string for '" ++ param ++ "' contained a non-ASCII char, was '" ++ s ++ "'")
  else .ok ()

/-- Modelled on `check_valid_string_optional` (`nautilus_core::correctness`):
`check_valid_string` on a present string. -/
def checkValidStringOptional (s : Option String) (param : String) : Except String Unit :=
  match s with
  | some s => checkValidString s param
  | none => .ok ()

/-- Modelled on `check_equal_u8` (`nautilus_core::correctness`), naming both parameters. -/
def checkEqualU8 (lhs rhs : UInt8) (lhsParam rhsParam : String) : Except String Unit :=
  if lhs = rhs then .ok ()
  else .error ("'" ++ lhsParam ++ "' u8 of " ++ toString lhs ++ " was not equal to '" ++
    rhsParam ++ "' u8 of " ++ toString rhs)

/-- Modelled on `check_positive_i64` (`nautilus_core::correctness`), naming `param`. -/
def checkPositiveI64 (value : I64) (param : String) : Except String Unit :=
  if 0 < value.val then .ok ()
  else .error ("invalid i64 for '" ++ param ++ "' not positive, was " ++ toString value.val)

theorem checkValidString_eq_ok_iff (s param : String) :
    checkValidString s param = .ok () ↔ ValidString s := by
  unfold checkValidString ValidString
  split_ifs with h0 h1 h2 <;> simp_all +contextual [List.all_eq_true]

theorem checkValidString_names {s param e : String} (h : checkValidString s param = .error e) :
    NamesField e param := by
  unfold checkValidString at h
  split_ifs at h <;> cases h
  · exact ⟨"invalid string for ".data, ", was empty".data, by simp⟩
  · exact ⟨"invalid string for ".data, ", was all whitespace".data, by simp⟩
  · exact ⟨"invalid string for ".data,
      (" contained a non-ASCII char, was '" ++ s ++ "'").data, by simp⟩

theorem checkValidStringOptional_eq_ok_iff (s : Option String) (param : String) :
    checkValidStringOptional s param = .ok () ↔ ∀ t ∈ s, ValidString t := by
  cases s <;> simp [checkValidStringOptional, checkValidString_eq_ok_iff]

theorem checkEqualU8_eq_ok_iff (lhs rhs : UInt8) (lp rp : String) :
    checkEqualU8 lhs rhs lp rp = .ok () ↔ lhs = rhs := by
  unfold checkEqualU8; split_ifs <;> simp_all

theorem checkEqualU8_names {lhs rhs : UInt8} {lp rp e : String}
    (h : checkEqualU8 lhs rhs lp rp = .error e) : NamesField e lp ∧ NamesField e rp := by
  unfold checkEqualU8 at h
  split_ifs at h
  cases h
  exact ⟨⟨[], (" u8 of " ++ toString lhs ++ " was not equal to '" ++ rp ++ "' u8 of " ++
      toString rhs).data, by simp⟩,
    ⟨("'" ++ lp ++ "' u8 of " ++ toString lhs ++ " was not equal to ").data,
      (" u8 of " ++ toString rhs).data, by simp⟩⟩

theorem checkPositiveI64_eq_ok_iff (value : I64) (param : String) :
    checkPositiveI64 value param = .ok () ↔ 0 < value.val := by
  unfold checkPositiveI64; split_ifs <;> simp_all

theorem checkPositiveI64_names {value : I64} {param e : String}
    (h : checkPositiveI64 value param = .error e) : NamesField e param := by
  unfold checkPositiveI64 at h
  split_ifs at h
  cases h
  exact ⟨"invalid i64 for ".data, (" not positive, was " ++ toString value.val).data, by simp⟩

/-! ## The contract and its constructors -/

/-- `FuturesContract` (lines 43–67). -/
structure FuturesContract where
  id : InstrumentId
  rawSymbol : String
  assetClass : AssetClass
  exchange : Option String
  underlying : String
  activationNs : UInt64
  expirationNs : UInt64
  currency : Currency
  pricePrecision : UInt8
  priceIncrement : Price
  sizeIncrement : Quantity
  sizePrecision : UInt8
  multiplier : Quantity
  lotSize : Quantity
  marginInit : Decimal
  marginMaint : Decimal
  maxQuantity : Option Quantity
  minQuantity : Option Quantity
  maxPrice : Option Price
  minPrice : Option Price
  tsEvent : UInt64
  tsInit : UInt64
  deriving DecidableEq

namespace FuturesContract

/-- The arguments of `new_checked` and `new` (lines 77–96), in their order. -/
structure Args where
  id : InstrumentId
  rawSymbol : String
  assetClass : AssetClass
  exchange : Option String
  underlying : String
  activationNs : UInt64
  expirationNs : UInt64
  currency : Currency
  pricePrecision : UInt8
  priceIncrement : Price
  multiplier : Quantity
  lotSize : Quantity
  maxQuantity : Option Quantity
  minQuantity : Option Quantity
  maxPrice : Option Price
  minPrice : Option Price
  marginInit : Option Decimal
  marginMaint : Option Decimal
  tsEvent : UInt64
  tsInit : UInt64

/-- The `Self { .. }` that `new_checked` returns (lines 107–130): the arguments, with
`size_precision = 0`, `size_increment = Quantity::from(1)`, zero margins by default and
`min_quantity` defaulting to `Quantity::from(1)`. -/
def ofArgs (a : Args) : FuturesContract where
  id := a.id
  rawSymbol := a.rawSymbol
  assetClass := a.assetClass
  exchange := a.exchange
  underlying := a.underlying
  activationNs := a.activationNs
  expirationNs := a.expirationNs
  currency := a.currency
  pricePrecision := a.pricePrecision
  priceIncrement := a.priceIncrement
  sizePrecision := 0
  sizeIncrement := Quantity.one
  multiplier := a.multiplier
  lotSize := a.lotSize
  marginInit := a.marginInit.getD Decimal.zero
  marginMaint := a.marginMaint.getD Decimal.zero
  maxQuantity := a.maxQuantity
  minQuantity := some (a.minQuantity.getD Quantity.one)
  maxPrice := a.maxPrice
  minPrice := a.minPrice
  tsEvent := a.tsEvent
  tsInit := a.tsInit

/-- `FuturesContract::new_checked` (lines 76–131). -/
def newChecked (a : Args) : Except String FuturesContract := do
  checkValidStringOptional a.exchange "isin"
  checkValidString a.underlying "underlying"
  checkEqualU8 a.pricePrecision a.priceIncrement.precision "price_precision"
    "price_increment.precision"
  checkPositiveI64 a.priceIncrement.raw "price_increment.raw"
  pure (ofArgs a)

/-- `FuturesContract::new` (lines 135–180): `new_checked(..).expect(FAILED)`; the `Debug` of an
`anyhow::Error` is its message. -/
def new (a : Args) : Run FuturesContract := expectOk (newChecked a) failed fun e => e

/-- The construction contract of the spec, on the arguments. -/
structure Args.Valid (a : Args) : Prop where
  exchange : ∀ s ∈ a.exchange, ValidString s
  underlying : ValidString a.underlying
  pricePrecision : a.pricePrecision = a.priceIncrement.precision
  priceIncrement : 0 < a.priceIncrement.raw.val

/-- What every contract `new_checked` builds satisfies: the checked fields and the fixed
sizing of a futures contract. -/
structure Valid (c : FuturesContract) : Prop where
  exchange : ∀ s ∈ c.exchange, ValidString s
  underlying : ValidString c.underlying
  pricePrecision : c.pricePrecision = c.priceIncrement.precision
  priceIncrement : 0 < c.priceIncrement.raw.val
  sizePrecision : c.sizePrecision = 0
  sizeIncrement : c.sizeIncrement = Quantity.one
  minQuantity : c.minQuantity.isSome

theorem except_bind_eq_ok {ε α : Type} {x : Except ε Unit} {f : Unit → Except ε α} {b : α} :
    (x >>= f) = .ok b ↔ x = .ok () ∧ f () = .ok b := by
  cases x <;> simp [bind, Except.bind]

theorem except_bind_eq_error {ε α : Type} {x : Except ε Unit} {f : Unit → Except ε α}
    {e : ε} : (x >>= f) = .error e ↔ x = .error e ∨ x = .ok () ∧ f () = .error e := by
  cases x <;> simp [bind, Except.bind]

theorem newChecked_eq_ok_iff (a : Args) (c : FuturesContract) :
    newChecked a = .ok c ↔ a.Valid ∧ c = ofArgs a := by
  simp only [newChecked, except_bind_eq_ok, checkValidStringOptional_eq_ok_iff,
    checkValidString_eq_ok_iff, checkEqualU8_eq_ok_iff, checkPositiveI64_eq_ok_iff]
  constructor
  · rintro ⟨h1, h2, h3, h4, h5⟩
    exact ⟨⟨h1, h2, h3, h4⟩, (Except.ok.inj h5).symm⟩
  · rintro ⟨⟨h1, h2, h3, h4⟩, rfl⟩
    exact ⟨h1, h2, h3, h4, rfl⟩

theorem newChecked_error {a : Args} {e : String} (h : newChecked a = .error e) :
    (¬ (∀ s ∈ a.exchange, ValidString s) ∧ NamesField e "isin") ∨
    ((∀ s ∈ a.exchange, ValidString s) ∧ ¬ ValidString a.underlying ∧
      NamesField e "underlying") ∨
    ((∀ s ∈ a.exchange, ValidString s) ∧ ValidString a.underlying ∧
      a.pricePrecision ≠ a.priceIncrement.precision ∧ NamesField e "price_precision" ∧
      NamesField e "price_increment.precision") ∨
    ((∀ s ∈ a.exchange, ValidString s) ∧ ValidString a.underlying ∧
      a.pricePrecision = a.priceIncrement.precision ∧ a.priceIncrement.raw.val ≤ 0 ∧
      NamesField e "price_increment.raw") := by
  simp only [newChecked, except_bind_eq_error] at h
  rcases h with h1 | ⟨h1, h2 | ⟨h2, h3 | ⟨h3, h4 | ⟨h4, h5⟩⟩⟩⟩
  · refine .inl
      ⟨fun hv => (nomatch h1.symm.trans ((checkValidStringOptional_eq_ok_iff _ _).mpr hv)), ?_⟩
    cases hx : a.exchange with
    | none => simp [hx, checkValidStringOptional] at h1
    | some s => rw [hx] at h1; exact checkValidString_names h1
  · exact .inr (.inl ⟨(checkValidStringOptional_eq_ok_iff _ _).mp h1,
      fun hv => (nomatch h2.symm.trans ((checkValidString_eq_ok_iff _ _).mpr hv)),
      checkValidString_names h2⟩)
  · exact .inr (.inr (.inl ⟨(checkValidStringOptional_eq_ok_iff _ _).mp h1,
      (checkValidString_eq_ok_iff _ _).mp h2,
      fun hv => (nomatch h3.symm.trans ((checkEqualU8_eq_ok_iff _ _ _ _).mpr hv)),
      checkEqualU8_names h3⟩))
  · exact .inr (.inr (.inr ⟨(checkValidStringOptional_eq_ok_iff _ _).mp h1,
      (checkValidString_eq_ok_iff _ _).mp h2, (checkEqualU8_eq_ok_iff _ _ _ _).mp h3,
      not_lt.mp fun hv => (nomatch h4.symm.trans ((checkPositiveI64_eq_ok_iff _ _).mpr hv)),
      checkPositiveI64_names h4⟩))
  · cases h5

theorem valid_ofArgs {a : Args} (h : a.Valid) : (ofArgs a).Valid :=
  ⟨h.exchange, h.underlying, h.pricePrecision, h.priceIncrement, rfl, rfl, rfl⟩

theorem valid_of_newChecked {a : Args} {c : FuturesContract} (h : newChecked a = .ok c) :
    c.Valid := by
  obtain ⟨ha, rfl⟩ := (newChecked_eq_ok_iff a c).mp h
  exact valid_ofArgs ha

/-- `new` returns exactly on valid arguments, the contract `ofArgs` builds; on any other it
panics through `expect`. -/
theorem new_eq_ret_iff (a : Args) (c : FuturesContract) :
    new a = .ret c ↔ a.Valid ∧ c = ofArgs a := by
  rw [← newChecked_eq_ok_iff]
  unfold new expectOk
  split <;> simp_all

/-- A blank exchange code is reported under the name `isin`, and never as `exchange`. -/
theorem newChecked_blank_exchange {a : Args} {s : String} (hs : a.exchange = some s)
    (hw : s.data.all isWhitespace = true) :
    ∃ e, newChecked a = .error e ∧ NamesField e "isin" ∧ ¬ NamesField e "exchange" := by
  have h1 : checkValidStringOptional a.exchange "isin" =
      .error (if s.data = [] then "invalid string for 'isin', was empty"
        else "invalid string for 'isin', was all whitespace") := by
    simp only [hs, checkValidStringOptional, checkValidString, hw]
    split_ifs <;> rfl
  refine ⟨_, by simp only [newChecked, h1]; rfl, ?_⟩
  split_ifs <;> decide

/-- The exchange code `""`. -/
theorem newChecked_empty_exchange :
    ∃ e, newChecked
        { id := ⟨"ESZ21", "GLBX"⟩, rawSymbol := "ESZ21", assetClass := .index,
          exchange := some "", underlying := "ES", activationNs := 0, expirationNs := 0,
          currency := ⟨"USD", 2⟩, pricePrecision := 2, priceIncrement := ⟨I64.saturate 25, 2⟩,
          multiplier := Quantity.one, lotSize := Quantity.one, maxQuantity := none,
          minQuantity := none, maxPrice := none, minPrice := none, marginInit := none,
          marginMaint := none, tsEvent := 0, tsInit := 0 } = .error e ∧
      NamesField e "isin" ∧ ¬ NamesField e "exchange" :=
  newChecked_blank_exchange rfl (by decide)

/-! ## Equality, hashing and the `Instrument` accessors -/

/-- `impl PartialEq for FuturesContract` (lines 183–187): the ids are compared. -/
def eq (self other : FuturesContract) : Bool := self.id == other.id

/-- `impl Hash for FuturesContract` (lines 191–195): what is fed to the hasher, the id. -/
def hashInput (self : FuturesContract) : InstrumentId := self.id

theorem eq_iff_id (c d : FuturesContract) : c.eq d = true ↔ c.id = d.id := by
  simp [eq]

/-- `Eq` is an equivalence, as `impl Eq` (line 189) promises. -/
theorem eq_equivalence : Equivalence fun c d : FuturesContract => c.eq d = true where
  refl c := (eq_iff_id c c).mpr rfl
  symm h := (eq_iff_id _ _).mpr ((eq_iff_id _ _).mp h).symm
  trans h1 h2 := (eq_iff_id _ _).mpr (((eq_iff_id _ _).mp h1).trans ((eq_iff_id _ _).mp h2))

/-- Equal contracts hash alike, as `Hash` must agree with `Eq`. -/
theorem hashInput_eq_of_eq {c d : FuturesContract} (h : c.eq d = true) :
    c.hashInput = d.hashInput :=
  (eq_iff_id c d).mp h

/-- The answers of the `Instrument` trait (the spec's capability set). -/
structure InstrumentInfo where
  id : InstrumentId
  rawSymbol : String
  assetClass : AssetClass
  instrumentClass : InstrumentClass
  underlying : Option String
  baseCurrency : Option Currency
  quoteCurrency : Currency
  settlementCurrency : Currency
  isin : Option String
  optionKind : Option Tardis.OptionKind
  exchange : Option String
  strikePrice : Option Price
  activationNs : Option UInt64
  expirationNs : Option UInt64
  isInverse : Bool
  pricePrecision : UInt8
  sizePrecision : UInt8
  priceIncrement : Price
  sizeIncrement : Quantity
  multiplier : Quantity
  lotSize : Option Quantity
  maxQuantity : Option Quantity
  minQuantity : Option Quantity
  maxNotional : Option Money
  minNotional : Option Money
  maxPrice : Option Price
  minPrice : Option Price
  tsEvent : UInt64
  tsInit : UInt64

/-- `impl Instrument for FuturesContract` (lines 197–316). `size_precision` and
`size_increment` return the constants `0` and `Quantity::from(1)`, not the fields. -/
def info (self : FuturesContract) : InstrumentInfo where
  id := self.id
  rawSymbol := self.rawSymbol
  assetClass := self.assetClass
  instrumentClass := .future
  underlying := some self.underlying
  baseCurrency := none
  quoteCurrency := self.currency
  settlementCurrency := self.currency
  isin := none
  optionKind := none
  exchange := self.exchange
  strikePrice := none
  activationNs := some self.activationNs
  expirationNs := some self.expirationNs
  isInverse := false
  pricePrecision := self.pricePrecision
  sizePrecision := 0
  priceIncrement := self.priceIncrement
  sizeIncrement := Quantity.one
  multiplier := self.multiplier
  lotSize := some self.lotSize
  maxQuantity := self.maxQuantity
  minQuantity := self.minQuantity
  maxNotional := none
  minNotional := none
  maxPrice := self.maxPrice
  minPrice := self.minPrice
  tsEvent := self.tsEvent
  tsInit := self.tsInit

/-- `InstrumentAny` (`instruments/any.rs`, not in the source), with the one variant this type
builds. -/
inductive InstrumentAny where
  | futuresContract (c : FuturesContract)
  deriving DecidableEq

/-- `Instrument::into_any` (lines 198–200): the contract in its variant. -/
def intoAny (self : FuturesContract) : InstrumentAny := .futuresContract self

/-- On a contract that satisfies the invariant, the sizing accessors agree with the stored
fields and `min_quantity` is present. -/
theorem info_of_valid {c : FuturesContract} (hc : c.Valid) :
    c.info.sizePrecision = c.sizePrecision ∧ c.info.sizeIncrement = c.sizeIncrement ∧
      c.info.minQuantity.isSome ∧ c.info.pricePrecision = c.info.priceIncrement.precision :=
  ⟨hc.sizePrecision.symm, hc.sizeIncrement.symm, hc.minQuantity, hc.pricePrecision⟩

end FuturesContract

end NautilusCore
