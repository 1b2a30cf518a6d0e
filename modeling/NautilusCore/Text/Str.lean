import Mathlib.Data.List.Basic

/-!
# String operations of Rust's `str` and of the `thousands` crate

Strings are their lists of Unicode scalar values, as Rust's `&str` (valid UTF-8) and Lean's
`String` both are.

* `splitOn p s`: `str::split(p)`, the pieces between the characters satisfying `p`, empty
  pieces included (`"".split('_')` is `[""]`).
* `splitWhitespace s`: `str::split_whitespace`, i.e. `split(char::is_whitespace)` without the
  empty pieces; `isWhitespace` is Unicode's `White_Space` property, as `char::is_whitespace`.
* `separateWithUnderscores s`: `Separable::separate_with_underscores` of the `thousands`
  crate: an `_` between groups of three digits, counted from the right, in the first run of
  ASCII digits of `s`; the rest of `s` is kept.
-/

namespace NautilusCore

/-- `char::is_whitespace`: the Unicode `White_Space` property. -/
def isWhitespace (c : Char) : Bool :=
  let v := c.toNat
  (0x09 ≤ v && v ≤ 0x0D) || v == 0x20 || v == 0x85 || v == 0xA0 || v == 0x1680 ||
    (0x2000 ≤ v && v ≤ 0x200A) || v == 0x2028 || v == 0x2029 || v == 0x202F ||
    v == 0x205F || v == 0x3000

theorem isWhitespace_of_isDigit {c : Char} (h : c.isDigit = true) : isWhitespace c = false := by
  simp only [Char.isDigit, Bool.and_eq_true, decide_eq_true_eq] at h
  have h1 : 48 ≤ c.toNat := h.1
  have h2 : c.toNat ≤ 57 := h.2
  simp only [isWhitespace, Bool.or_eq_false_iff, Bool.and_eq_false_imp, decide_eq_true_eq,
    beq_eq_false_iff_ne, decide_eq_false_iff_not]
  omega

/-- Put `c` in front of the first piece. -/
def consHead (c : Char) : List (List Char) → List (List Char)
  | [] => [[c]]
  | w :: ws => (c :: w) :: ws

/-- `str::split` with a character predicate. -/
def splitOn (p : Char → Bool) : List Char → List (List Char)
  | [] => [[]]
  | c :: cs => if p c then [] :: splitOn p cs else consHead c (splitOn p cs)

theorem consHead_append (c : Char) {L : List (List Char)} (h : L ≠ []) (M : List (List Char)) :
    consHead c (L ++ M) = consHead c L ++ M := by
  cases L with
  | nil => exact absurd rfl h
  | cons w ws => rfl

theorem splitOn_ne_nil (p : Char → Bool) (s : List Char) : splitOn p s ≠ [] := by
  cases s with
  | nil => simp [splitOn]
  | cons c cs =>
    unfold splitOn
    split
    · simp
    · cases splitOn p cs <;> simp [consHead]

theorem splitOn_of_forall {p : Char → Bool} {s : List Char} (h : ∀ c ∈ s, p c = false) :
    splitOn p s = [s] := by
  induction s with
  | nil => rfl
  | cons c cs ih =>
    simp only [List.mem_cons, forall_eq_or_imp] at h
    simp [splitOn, h.1, ih h.2, consHead]

theorem length_consHead (c : Char) {L : List (List Char)} (h : L ≠ []) :
    (consHead c L).length = L.length := by
  cases L with
  | nil => exact absurd rfl h
  | cons w ws => rfl

theorem getLast?_consHead (c : Char) {L : List (List Char)} (h : 2 ≤ L.length) :
    (consHead c L).getLast? = L.getLast? := by
  match L, h with
  | w :: w' :: ws, _ => simp [consHead]

theorem two_le_length_splitOn {p : Char → Bool} {s : List Char} (h : ∃ c ∈ s, p c = true) :
    2 ≤ (splitOn p s).length := by
  induction s with
  | nil => simp at h
  | cons c cs ih =>
    unfold splitOn
    by_cases hc : p c = true
    · have := List.length_pos.mpr (splitOn_ne_nil p cs)
      simp only [hc, ite_true, List.length_cons]
      omega
    · have hcs : ∃ d ∈ cs, p d = true := by
        obtain ⟨d, hd, hpd⟩ := h
        rcases List.mem_cons.mp hd with rfl | hd
        · exact absurd hpd hc
        · exact ⟨d, hd, hpd⟩
      simp only [hc, ite_false, Bool.false_eq_true]
      rw [length_consHead c (splitOn_ne_nil p cs)]
      exact ih hcs

/-- The text before the last piece of a split is empty (for a single piece) or ends with a
separator. -/
theorem splitOn_last_spec (p : Char → Bool) (s : List Char) :
    ∃ pre L, (splitOn p s).getLast? = some L ∧ s = pre ++ L ∧
      ((splitOn p s).length = 1 ∧ pre = [] ∨
        2 ≤ (splitOn p s).length ∧ ∃ q c, pre = q ++ [c] ∧ p c = true) := by
  induction s with
  | nil => exact ⟨[], [], rfl, rfl, .inl ⟨rfl, rfl⟩⟩
  | cons c cs ih =>
    obtain ⟨pre, L, hL, hs, hpre⟩ := ih
    have hne := splitOn_ne_nil p cs
    unfold splitOn
    by_cases hc : p c = true
    · simp only [hc, ite_true, List.length_cons]
      refine ⟨c :: pre, L, ?_, by simp [hs], .inr ⟨by have := List.length_pos.mpr hne; omega, ?_⟩⟩
      · obtain ⟨w, ws, hw⟩ := List.exists_cons_of_ne_nil hne
        rw [hw] at hL ⊢
        simpa [List.getLast?_cons_cons] using hL
      · rcases hpre with ⟨-, rfl⟩ | ⟨-, q, d, rfl, hd⟩
        · exact ⟨[], c, rfl, hc⟩
        · exact ⟨c :: q, d, rfl, hd⟩
    · simp only [hc, ite_false, Bool.false_eq_true, length_consHead c hne]
      rcases hpre with ⟨h1, rfl⟩ | ⟨h2, q, d, rfl, hd⟩
      · obtain ⟨w, hw⟩ := List.length_eq_one.mp h1
        rw [hw] at hL ⊢
        simp only [List.getLast?_singleton, Option.some.injEq] at hL
        subst hL
        exact ⟨[], c :: w, rfl, by simp [hs], .inl ⟨by simp [consHead], rfl⟩⟩
      · exact ⟨c :: q ++ [d], L, by rw [getLast?_consHead c h2, hL], by simp [hs],
          .inr ⟨h2, c :: q, d, rfl, hd⟩⟩

/-- A piece without separators after nothing or after a separator is the last piece. -/
theorem getLast?_splitOn_append {p : Char → Bool} {pre seg : List Char}
    (hpre : pre = [] ∨ ∃ q c, pre = q ++ [c] ∧ p c = true) (hseg : ∀ c ∈ seg, p c = false) :
    (splitOn p (pre ++ seg)).getLast? = some seg := by
  induction pre with
  | nil => simp [splitOn_of_forall hseg]
  | cons c pre' ih =>
    obtain ⟨q, d, hq, hd⟩ := hpre.resolve_left (List.cons_ne_nil c pre')
    cases q with
    | nil =>
      obtain ⟨rfl, rfl⟩ : c = d ∧ pre' = [] := by simpa using hq
      simp [splitOn, hd, splitOn_of_forall hseg]
    | cons c' q =>
      obtain ⟨rfl, rfl⟩ : c = c' ∧ pre' = q ++ [d] := by simpa using hq
      have h2 : 2 ≤ (splitOn p (q ++ [d] ++ seg)).length :=
        two_le_length_splitOn ⟨d, by simp, hd⟩
      have hlast := ih (.inr ⟨q, d, rfl, hd⟩)
      obtain ⟨w, ws, hw⟩ := List.exists_cons_of_ne_nil (splitOn_ne_nil p (q ++ [d] ++ seg))
      show (splitOn p (c :: (q ++ [d] ++ seg))).getLast? = some seg
      unfold splitOn
      split
      · rw [hw] at hlast ⊢; simpa [List.getLast?_cons_cons] using hlast
      · rw [getLast?_consHead c h2, hlast]

/-- A separator ends the pieces of the text before it. -/
theorem splitOn_append_sep {p : Char → Bool} {c : Char} (hc : p c = true) (A C : List Char) :
    splitOn p (A ++ c :: C) = splitOn p A ++ splitOn p C := by
  induction A with
  | nil => simp [splitOn, hc]
  | cons a A ih =>
    by_cases ha : p a = true
    · simp [splitOn, ha, ih]
    · simp [splitOn, ha, ih, consHead_append a (splitOn_ne_nil p A)]

/-- `str::split_whitespace`. -/
def splitWhitespace (s : List Char) : List (List Char) :=
  (splitOn isWhitespace s).filter fun w => !w.isEmpty

theorem splitWhitespace_append_sep {c : Char} (hc : isWhitespace c = true) (A C : List Char) :
    splitWhitespace (A ++ c :: C) = splitWhitespace A ++ splitWhitespace C := by
  simp [splitWhitespace, splitOn_append_sep hc]

theorem splitWhitespace_of_forall {A : List Char} (hA : ∀ c ∈ A, isWhitespace c = false)
    (hne : A ≠ []) : splitWhitespace A = [A] := by
  simp [splitWhitespace, splitOn_of_forall hA, hne]

/-- `_` after every third character of a reversed digit run, except at its end. -/
def groupRev : List Char → List Char
  | a :: b :: c :: d :: rest => a :: b :: c :: '_' :: groupRev (d :: rest)
  | l => l

/-- `thousands::Separable::separate_with_underscores`. -/
def separateWithUnderscores (s : List Char) : List Char :=
  let before := s.takeWhile fun c => !c.isDigit
  let rest := s.dropWhile fun c => !c.isDigit
  before ++ (groupRev (rest.takeWhile Char.isDigit).reverse).reverse ++
    rest.dropWhile Char.isDigit

/-- One step of reading decimal digits: `acc * 10 + digit`. -/
def digitStep (acc : ℕ) (c : Char) : ℕ := 10 * acc + (c.toNat - 48)

/-- The value of a list of decimal digits. -/
def digitsVal (ds : List Char) : ℕ := ds.foldl digitStep 0

theorem le_foldl_digitStep (ds : List Char) (acc : ℕ) : acc ≤ ds.foldl digitStep acc := by
  induction ds generalizing acc with
  | nil => exact le_rfl
  | cons c cs ih => exact le_trans (by unfold digitStep; omega) (ih _)

/-- The leading ASCII digits of `s`, and what follows them. -/
def spanDigits (s : List Char) : List Char × List Char :=
  (s.takeWhile Char.isDigit, s.dropWhile Char.isDigit)

/-- `str::replace(c, "")`. -/
def removeChar (c : Char) (s : List Char) : List Char := s.filter fun d => d != c

/-! ## Separators are only inserted -/

theorem removeChar_groupRev (l : List Char) :
    removeChar '_' (groupRev l) = removeChar '_' l := by
  induction l using groupRev.induct with
  | case1 a b c d rest ih =>
    simp only [removeChar] at ih ⊢
    simp [groupRev, List.filter_cons, ih]
  | case2 l h => rw [groupRev]; exact h

theorem groupRev_subset (l : List Char) : groupRev l ⊆ '_' :: l := by
  induction l using groupRev.induct with
  | case1 a b c d rest ih =>
    intro x hx
    have := @ih x
    simp only [groupRev, List.mem_cons] at hx this ⊢
    tauto
  | case2 l h => rw [groupRev]; exact List.subset_cons_self _ _; exact h

theorem length_le_groupRev (l : List Char) : l.length ≤ (groupRev l).length := by
  induction l using groupRev.induct with
  | case1 a b c d rest ih => simp only [groupRev, List.length_cons] at ih ⊢; omega
  | case2 l h => rw [groupRev]; exact h

/-- Removing the `_`s undoes `separate_with_underscores`, up to the `_`s already there. -/
theorem removeChar_separateWithUnderscores (s : List Char) :
    removeChar '_' (separateWithUnderscores s) = removeChar '_' s := by
  have h := removeChar_groupRev ((s.dropWhile fun c => !c.isDigit).takeWhile Char.isDigit).reverse
  conv_rhs => rw [← List.takeWhile_append_dropWhile (fun c => !c.isDigit) s,
    ← List.takeWhile_append_dropWhile Char.isDigit (s.dropWhile _)]
  simp only [removeChar, List.filter_reverse] at h
  simp only [separateWithUnderscores, removeChar, List.filter_append, List.filter_reverse, h,
    List.reverse_reverse, List.append_assoc]

theorem separateWithUnderscores_subset (s : List Char) :
    separateWithUnderscores s ⊆ '_' :: s := by
  intro c h
  simp only [separateWithUnderscores, List.mem_append, List.mem_reverse] at h
  have hd : s.dropWhile (fun c => !c.isDigit) ⊆ s := (List.dropWhile_suffix _).subset
  rcases h with (h | h) | h
  · exact List.mem_cons_of_mem _ (List.takeWhile_subset _ h)
  · rcases List.mem_cons.mp (groupRev_subset _ h) with h | h
    · exact h ▸ List.mem_cons_self _ _
    · exact List.mem_cons_of_mem _ (hd (List.takeWhile_subset _ (List.mem_reverse.mp h)))
  · exact List.mem_cons_of_mem _ (hd ((List.dropWhile_suffix _).subset h))

theorem length_le_separateWithUnderscores (s : List Char) :
    s.length ≤ (separateWithUnderscores s).length := by
  have h := length_le_groupRev ((s.dropWhile fun c => !c.isDigit).takeWhile Char.isDigit).reverse
  conv_lhs => rw [← List.takeWhile_append_dropWhile (fun c => !c.isDigit) s,
    ← List.takeWhile_append_dropWhile Char.isDigit (s.dropWhile _)]
  simp only [separateWithUnderscores, List.length_append, List.length_reverse] at h ⊢
  omega

end NautilusCore
