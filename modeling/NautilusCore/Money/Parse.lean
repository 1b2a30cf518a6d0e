import NautilusCore.Money.Basic

/-!
# `Money::from_str`: its tokens, its errors and its panics

`from_str` (lines 128–152) splits its input on whitespace, strips every `_` from the amount
token, parses it as an `f64`, looks the code up and then calls `Money::new`, which panics
through `expect` when `new_checked` fails. So an amount that parses but is NaN, infinite or
outside `[MONEY_MIN, MONEY_MAX]` does not give an `Err`: `from_str` panics on it, and so does
`Deserialize`, which goes through `Money::from`, i.e. `from_str(..).unwrap()`, and so also
panics on every input `from_str` rejects with an `Err`.

Since the amount token is read only after its `_`s are removed, the text that
`to_formatted_string` writes, with `_` between digit groups, parses as the `Display` text does.

Results:
* `fromStr_panics_of_not_mem_range`: `from_str` and `Deserialize` panic on every string whose
  amount parses to an `f64` that fails `MONEY_MIN ≤ a ≤ MONEY_MAX` and whose code resolves;
* `deserialize_panics_of_error`: `Deserialize` panics on every string `from_str` rejects;
* `fromStr_toFormattedString`: `from_str` gives the same outcome on `to_formatted_string` as on
  `to_string`, for every `Money`.
-/

namespace NautilusCore.Money

/-! ## The accepting path -/

/-- An amount that fails the range check is an `Err` of `new_checked`, whose text names the
amount. -/
theorem newChecked_of_not_mem_range (prof : Profile) {a : F64}
    (h : (F64.le moneyMin a && F64.le a moneyMax) = false) (c : Currency) :
    ∃ e, newChecked prof a c = .ret (.error e) := by
  unfold newChecked checkInRangeInclusiveF64
  split_ifs <;> simp_all

/-- `from_str` on two tokens whose amount parses and whose code resolves is `Money::new`. -/
theorem fromStr_of_tokens (reg : String → Except String Currency) (prof : Profile)
    {s : String} {a c : List Char} {v : F64} {cur : Currency}
    (hs : splitWhitespace s.data = [a, c]) (hv : parseF64 (removeChar '_' a) = .ok v)
    (hc : reg ⟨c⟩ = .ok cur) :
    fromStr reg prof s = Except.ok <$> new prof v cur := by
  simp only [fromStr, hs, hv, hc]

theorem fromStr_panics_of_not_mem_range (reg : String → Except String Currency)
    (prof : Profile) {s : String} {a c : List Char} {v : F64} {cur : Currency}
    (hs : splitWhitespace s.data = [a, c]) (hv : parseF64 (removeChar '_' a) = .ok v)
    (hc : reg ⟨c⟩ = .ok cur) (hr : (F64.le moneyMin v && F64.le v moneyMax) = false) :
    (fromStr reg prof s).IsPanic ∧ (deserialize reg prof s).IsPanic := by
  obtain ⟨e, he⟩ := newChecked_of_not_mem_range prof hr cur
  have hp : fromStr reg prof s = .panic (failed ++ ": " ++ e) := by
    simp [fromStr_of_tokens reg prof hs hv hc, new, he, expectOk]
  simp [deserialize, ofStr, hp]

/-- `"1e10 USD"`: the amount parses to `10^10 > MONEY_MAX`. -/
theorem fromStr_panics_one_e_ten :
    (fromStr (fun code => if code = "USD" then .ok ⟨"USD", 2⟩ else .error "Unknown currency")
        ⟨true⟩ "1e10 USD").IsPanic ∧
      (deserialize (fun code => if code = "USD" then .ok ⟨"USD", 2⟩ else .error
        "Unknown currency") ⟨true⟩ "1e10 USD").IsPanic :=
  @fromStr_panics_of_not_mem_range _ _ "1e10 USD" "1e10".data "USD".data (F64.ofInt 10000000000)
    ⟨"USD", 2⟩ (by decide) (by decide) rfl (by decide)

theorem deserialize_panics_of_error (reg : String → Except String Currency) (prof : Profile)
    {s e : String} (h : fromStr reg prof s = .ret (.error e)) :
    deserialize reg prof s =
      .panic ("called `Result::unwrap()` on an `Err` value: " ++ debugString e) := by
  simp [deserialize, ofStr, h, unwrapOk]

/-- `"0USD"` is one token, an `Err` of `from_str`, and a panic of `Deserialize`. -/
theorem deserialize_panics_one_token :
    fromStr (fun _ => .error "Unknown currency") ⟨true⟩ "0USD" =
        .ret (.error "Error invalid input format '0USD'. Expected '<amount> <currency>'") ∧
      deserialize (fun _ => .error "Unknown currency") ⟨true⟩ "0USD" =
        .panic ("called `Result::unwrap()` on an `Err` value: " ++
          debugString "Error invalid input format '0USD'. Expected '<amount> <currency>'") :=
  ⟨by decide, deserialize_panics_of_error _ _ (by decide)⟩

/-! ## Thousands separators -/

theorem splitWhitespace_amount_code {A : List Char} (hA : ∀ c ∈ A, isWhitespace c = false)
    (hne : A ≠ []) (code : String) :
    splitWhitespace (⟨A⟩ ++ " " ++ code : String).data = A :: splitWhitespace code.data := by
  have h : (⟨A⟩ ++ " " ++ code : String).data = A ++ ' ' :: code.data := by simp
  rw [h, splitWhitespace_append_sep (by decide), splitWhitespace_of_forall hA hne]
  rfl

/-- `from_str` reads an amount token only through `replace('_', "")`: inserting thousands
separators changes at most the texts of its errors, which quote the input. -/
theorem fromStr_separateWithUnderscores (reg : String → Except String Currency)
    (prof : Profile) {A : List Char} (hA : ∀ c ∈ A, isWhitespace c = false) (code : String) :
    Except.toOption <$> fromStr reg prof (⟨separateWithUnderscores A⟩ ++ " " ++ code) =
      Except.toOption <$> fromStr reg prof (⟨A⟩ ++ " " ++ code) := by
  rcases eq_or_ne A [] with rfl | hne
  · rfl
  have hS : ∀ c ∈ separateWithUnderscores A, isWhitespace c = false := fun c hc => by
    rcases List.mem_cons.mp (separateWithUnderscores_subset A hc) with rfl | hc
    · rfl
    · exact hA c hc
  have hSne : separateWithUnderscores A ≠ [] := List.ne_nil_of_length_pos
    (lt_of_lt_of_le (List.length_pos.mpr hne) (length_le_separateWithUnderscores A))
  simp only [fromStr, splitWhitespace_amount_code hS hSne, splitWhitespace_amount_code hA hne]
  rcases splitWhitespace code.data with _ | ⟨c, _ | ⟨d, W⟩⟩
  · rfl
  · dsimp only
    rw [removeChar_separateWithUnderscores]
    cases parseF64 (removeChar '_' A) <;> rfl
  · rfl

theorem fromStr_toFormattedString (reg : String → Except String Currency) (prof : Profile)
    (x : Money) :
    Except.toOption <$> fromStr reg prof x.toFormattedString =
      Except.toOption <$> fromStr reg prof x.toString :=
  fromStr_separateWithUnderscores reg prof (F64.fmtFixed_noWhitespace _ _) _

end NautilusCore.Money
