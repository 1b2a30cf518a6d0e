import Mathlib.Data.Int.Defs
import Mathlib.Tactic.NormNum

/-!
# Rust semantics used by the model

The parts of Rust's semantics that the modelled functions of `nautilus_core` rely on.

* `Run α`: a call returns a value or panics with a message. A `Result<T, E>` that Rust code
  returns is a Lean `Except E T` inside `Run`, so `Run (Except E T)` keeps a recoverable
  error (`ret (.error e)`) apart from a panic.
* `Profile`: whether the build checks integer overflow (Cargo's `overflow-checks`, on in the
  `dev` and `test` profiles and off in `release`). With checks, an overflowing `+`, `-`, `*`,
  `pow` or unary `-` on an integer panics; without them it wraps. `checked_*` and `/` do not
  depend on it.
* `I64`: Rust's `i64`, an integer that carries its range, so that a wrapped or out-of-range
  value cannot be built.
* `Option::expect`, `Result::expect`, `Result::unwrap` and `assert_eq!` as `Run`
  computations. The `left:`/`right:` lines that `assert_eq!` adds to its message are left out.
-/

namespace NautilusCore

/-- The outcome of running Rust code: it returns `a`, or it panics with `msg`. -/
inductive Run (α : Type) where
  | ret (a : α)
  | panic (msg : String)
  deriving DecidableEq, Repr

namespace Run

instance : Monad Run where
  pure := ret
  bind x f := match x with
    | ret a => f a
    | panic m => panic m

instance : LawfulMonad Run :=
  LawfulMonad.mk' Run (fun x => by cases x <;> rfl) (fun _ _ => rfl)
    (fun x _ _ => by cases x <;> rfl)

variable {α β : Type}

@[simp] theorem pure_eq (a : α) : (pure a : Run α) = ret a := rfl

@[simp] theorem ret_bind (a : α) (f : α → Run β) : ret a >>= f = f a := rfl

@[simp] theorem panic_bind (m : String) (f : α → Run β) : (panic m : Run α) >>= f = panic m :=
  rfl

@[simp] theorem map_ret (f : α → β) (a : α) : f <$> ret a = ret (f a) := rfl

@[simp] theorem map_panic (f : α → β) (m : String) : f <$> (panic m : Run α) = panic m := rfl

theorem bind_eq_ret {x : Run α} {f : α → Run β} {b : β} :
    x >>= f = ret b ↔ ∃ a, x = ret a ∧ f a = ret b := by
  cases x <;> simp

/-- The call panics, whatever its message. -/
def IsPanic : Run α → Prop
  | ret _ => False
  | panic _ => True

@[simp] theorem isPanic_panic (m : String) : IsPanic (panic m : Run α) := trivial

@[simp] theorem not_isPanic_ret (a : α) : ¬ IsPanic (ret a) := id

instance (r : Run α) : Decidable r.IsPanic :=
  match r with
  | ret _ => isFalse id
  | panic _ => isTrue trivial

end Run

instance decEqExcept {ε α : Type} [DecidableEq ε] [DecidableEq α] : DecidableEq (Except ε α)
  | .ok a, .ok b => decidable_of_iff (a = b) (by simp)
  | .error a, .error b => decidable_of_iff (a = b) (by simp)
  | .ok _, .error _ => isFalse (by simp)
  | .error _, .ok _ => isFalse (by simp)

/-- The build configuration: whether integer overflow is checked. -/
structure Profile where
  overflowChecks : Bool
  deriving DecidableEq, Repr

/-- `i64::MIN`. -/
def i64Min : ℤ := -2 ^ 63

/-- `i64::MAX`. -/
def i64Max : ℤ := 2 ^ 63 - 1

/-- A value of Rust's `i64`. -/
structure I64 where
  val : ℤ
  min_le : i64Min ≤ val
  le_max : val ≤ i64Max
  deriving DecidableEq

namespace I64

theorem ext_val {a b : I64} (h : a.val = b.val) : a = b := by
  cases a; cases b; cases h; rfl

/-- `z` as an `i64` when it is in range; `checked_*` return `None` otherwise. -/
def ofInt? (z : ℤ) : Option I64 :=
  if h : i64Min ≤ z ∧ z ≤ i64Max then some ⟨z, h.1, h.2⟩ else none

/-- The two's-complement wrap of `z` into `i64`. -/
def wrap (z : ℤ) : I64 where
  val := z.bmod (2 ^ 64)
  min_le := by have := @Int.le_bmod z (2 ^ 64) (by norm_num); norm_num [i64Min] at *; omega
  le_max := by have := @Int.bmod_lt z (2 ^ 64) (by norm_num); norm_num [i64Max] at *; omega

/-- `z` clamped into `i64`, as saturating conversions do. -/
def saturate (z : ℤ) : I64 :=
  ⟨max i64Min (min z i64Max), le_max_left _ _,
    max_le (by norm_num [i64Min, i64Max]) (min_le_right _ _)⟩

theorem saturate_of_mem {z : ℤ} (h1 : i64Min ≤ z) (h2 : z ≤ i64Max) : (saturate z).val = z := by
  simp [saturate, h1, h2]

/-- `i64::MIN` as a value. -/
def min : I64 := ⟨i64Min, le_rfl, by norm_num [i64Min, i64Max]⟩

/-- `0_i64`. -/
def zero : I64 := ⟨0, by norm_num [i64Min], by norm_num [i64Max]⟩

theorem ofInt?_eq_some {z : ℤ} {a : I64} : ofInt? z = some a ↔ a.val = z := by
  unfold ofInt?
  constructor
  · intro h; split at h <;> cases h; rfl
  · rintro rfl; simp [a.min_le, a.le_max]

theorem ofInt?_eq_none {z : ℤ} : ofInt? z = none ↔ ¬ (i64Min ≤ z ∧ z ≤ i64Max) := by
  unfold ofInt?; split <;> simp_all

theorem wrap_of_mem {z : ℤ} (h1 : i64Min ≤ z) (h2 : z ≤ i64Max) : (wrap z).val = z := by
  simp only [wrap, Int.bmod_def]
  unfold i64Min i64Max at *
  norm_num at *
  split <;> omega

/-- `i64::checked_add`. -/
def checkedAdd (a b : I64) : Option I64 := ofInt? (a.val + b.val)

/-- `i64::checked_sub`. -/
def checkedSub (a b : I64) : Option I64 := ofInt? (a.val - b.val)

/-- An integer operator whose exact result is `z`: in range it returns `z`; out of range it
panics with `msg` when overflow is checked and wraps otherwise. -/
def arith (prof : Profile) (z : ℤ) (msg : String) : Run I64 :=
  match ofInt? z with
  | some v => .ret v
  | none => if prof.overflowChecks then .panic msg else .ret (wrap z)

/-- Unary `-` on `i64`. -/
def neg (prof : Profile) (a : I64) : Run I64 :=
  arith prof (-a.val) "attempt to negate with overflow"

/-- `*` on `i64`. -/
def mul (prof : Profile) (a b : I64) : Run I64 :=
  arith prof (a.val * b.val) "attempt to multiply with overflow"

/-- `i64::pow`. Its square-and-multiply loop overflows at some step exactly when the result
does (it skips the last squaring), and wrapping commutes with products. -/
def pow (prof : Profile) (a : I64) (k : ℕ) : Run I64 :=
  arith prof (a.val ^ k) "attempt to multiply with overflow"

/-- `/` on `i64`: truncating division, which panics on a zero divisor and on
`i64::MIN / -1` whatever the profile. -/
def div (a b : I64) : Run I64 :=
  if b.val = 0 then .panic "attempt to divide by zero"
  else match ofInt? (a.val.tdiv b.val) with
    | some v => .ret v
    | none => .panic "attempt to divide with overflow"

theorem arith_of_mem (prof : Profile) {z : ℤ} (msg : String) (h1 : i64Min ≤ z)
    (h2 : z ≤ i64Max) : arith prof z msg = .ret ⟨z, h1, h2⟩ := by
  simp [arith, ofInt?, h1, h2]

theorem arith_eq_ret {prof : Profile} {z : ℤ} {msg : String} {a : I64}
    (h : arith prof z msg = .ret a) : a.val = z ∨ (prof.overflowChecks = false ∧ a = wrap z) := by
  unfold arith at h
  split at h
  · cases h; exact .inl (ofInt?_eq_some.mp ‹_›)
  · split at h
    · cases h
    · rename_i hc; cases h; exact .inr ⟨by simpa using hc, rfl⟩

end I64

/-- `u8` subtraction: wraps modulo `256` or panics, by the profile. -/
def u8Sub (prof : Profile) (a b : UInt8) : Run UInt8 :=
  if b ≤ a then .ret (a - b)
  else if prof.overflowChecks then .panic "attempt to subtract with overflow" else .ret (a - b)

/-- `u64` multiplication: wraps modulo `2^64` or panics, by the profile. -/
def u64Mul (prof : Profile) (a b : UInt64) : Run UInt64 :=
  if a.toNat * b.toNat < 2 ^ 64 then .ret (a * b)
  else if prof.overflowChecks then .panic "attempt to multiply with overflow" else .ret (a * b)

/-- `Option::expect(msg)`. -/
def expectSome {α : Type} (o : Option α) (msg : String) : Run α :=
  match o with
  | some a => .ret a
  | none => .panic msg

/-- `Result::expect(msg)`: the panic message is `msg: {e:?}`, with `debug` the error's
`Debug`. -/
def expectOk {ε α : Type} (r : Except ε α) (msg : String) (debug : ε → String) : Run α :=
  match r with
  | .ok a => .ret a
  | .error e => .panic (msg ++ ": " ++ debug e)

/-- `char::escape_debug_ext` as `<str as Debug>::fmt` calls it (double quotes escaped, single
quotes not): `\0`, `\t`, `\r`, `\n`, `\\` and `\"`, and `\u` with the code in lowercase
hexadecimal between braces for the other ASCII control characters. The escapes of non-ASCII
characters rest on Unicode tables (`is_printable`, `is_grapheme_extended`) that are not
modelled: such characters are written as themselves, as every printable one is. -/
def escapeDebug (c : Char) : List Char :=
  if c = '\x00' then ['\\', '0']
  else if c = '\t' then ['\\', 't']
  else if c = '\r' then ['\\', 'r']
  else if c = '\n' then ['\\', 'n']
  else if c = '\\' then ['\\', '\\']
  else if c = '"' then ['\\', '"']
  else if c.toNat < 0x20 ∨ c.toNat = 0x7f then
    ['\\', 'u', '\x7b'] ++ Nat.toDigits 16 c.toNat ++ ['\x7d']
  else [c]

/-- `Debug` of a `str`, as `unwrap` prints it: between double quotes, every character escaped
by `escapeDebug`. -/
def debugString (s : String) : String := "\"" ++ ⟨s.data.flatMap escapeDebug⟩ ++ "\""

example : debugString "a\"b\tc\x01" = "\"a\\\"b\\tc\\u\x7b1\x7d\"" := by decide

/-- `Result::unwrap()` on a `Result<T, String>`. -/
def unwrapOk {α : Type} (r : Except String α) : Run α :=
  match r with
  | .ok a => .ret a
  | .error e => .panic ("called `Result::unwrap()` on an `Err` value: " ++ debugString e)

/-- The message of a failed `assert_eq!`, with its optional custom message. -/
def assertEqMsg (msg : Option String) : String :=
  match msg with
  | none => "assertion `left == right` failed"
  | some m => "assertion `left == right` failed: " ++ m

/-- `assert_eq!(left, right)`, or `assert_eq!(left, right, msg)`. -/
def assertEq {α : Type} [DecidableEq α] (left right : α) (msg : Option String) : Run Unit :=
  if left = right then .ret () else .panic (assertEqMsg msg)

@[simp] theorem expectSome_some {α : Type} (a : α) (msg : String) :
    expectSome (some a) msg = .ret a := rfl

@[simp] theorem expectSome_none {α : Type} (msg : String) :
    expectSome (none : Option α) msg = .panic msg := rfl

theorem expectSome_eq_ret {α : Type} {o : Option α} {msg : String} {a : α} :
    expectSome o msg = .ret a ↔ o = some a := by
  cases o <;> simp [expectSome]

theorem expectOk_eq_ret {ε α : Type} {r : Except ε α} {msg : String} {debug : ε → String}
    {a : α} : expectOk r msg debug = .ret a ↔ r = .ok a := by
  cases r <;> simp [expectOk]

@[simp] theorem assertEq_self {α : Type} [DecidableEq α] (a : α) (msg : Option String) :
    assertEq a a msg = .ret () := by simp [assertEq]

theorem assertEq_of_ne {α : Type} [DecidableEq α] {a b : α} (h : a ≠ b) (msg : Option String) :
    assertEq a b msg = .panic (assertEqMsg msg) := by
  simp [assertEq, h]

end NautilusCore
