import Cartridge.Json.List
import Mathlib.Algebra.Group.Nat.Defs

/-!
# Natural numbers in JSON texts

The digits of a natural number of 64 bits are read back as that number, wherever the text behind
them does not continue the number.

* `Text.ofDecimal_decimal`   digits spell the number that they were printed from;
* `Json.EndsNumber`          a text that continues no number;
* `Json.scanNumber_digits`   digits in front of such a text are a number without point or exponent;
* `Json.isFinite_of_le`      it is within the range of double precision;
* `Json.readNumber_decimal`  the number that is printed is the one that is read.
-/

namespace Cartridge

/-! ## digits -/

namespace Text

theorem toNat_decimalDigit {n : Nat} (h : n < 10) : (decimalDigit n).toNat = '0'.toNat + n :=
  (by decide : ∀ d < 10, (decimalDigit d).toNat = '0'.toNat + d) n h

theorem isDigit_decimalDigit {n : Nat} (h : n < 10) : isDigit (decimalDigit n) = true :=
  (by decide : ∀ d < 10, isDigit (decimalDigit d) = true) n h

theorem digitValue_decimalDigit {n : Nat} (h : n < 10) : digitValue (decimalDigit n) = n := by
  rw [digitValue, toNat_decimalDigit h, Nat.add_sub_cancel_left]

theorem isDigit_of_mem_decimal {n : Nat} {c : Char} (h : c ∈ decimal n) : isDigit c = true := by
  fun_induction decimal n with
  | case1 n hn =>
    rw [List.mem_singleton.mp h]
    exact isDigit_decimalDigit hn
  | case2 n hn ih =>
    rcases List.mem_append.mp h with h | h
    · exact ih h
    · rw [List.mem_singleton.mp h]
      exact isDigit_decimalDigit (Nat.mod_lt _ (by decide))

/-- **Digits spell the number that they were printed from.** -/
theorem ofDecimal_decimal (n : Nat) : ofDecimal (decimal n) = n := by
  fun_induction decimal n with
  | case1 n hn =>
    rw [ofDecimal, List.foldl_cons, List.foldl_nil, digitValue_decimalDigit hn, Nat.mul_zero,
      Nat.zero_add]
  | case2 n hn ih =>
    rw [ofDecimal] at ih
    rw [ofDecimal, List.foldl_append, ih, List.foldl_cons, List.foldl_nil,
      digitValue_decimalDigit (Nat.mod_lt _ (by decide)), Nat.div_add_mod]

/-- no number but zero is printed with a zero in front -/
theorem head_decimal {n : Nat} (hn : 0 < n) : ∃ d digits, 0 < d ∧ d < 10 ∧
    decimal n = decimalDigit d :: digits := by
  fun_induction decimal n with
  | case1 n h => exact ⟨n, [], hn, h, rfl⟩
  | case2 n h ih =>
    obtain ⟨d, digits, hpos, hlt, heq⟩ := ih (by omega)
    exact ⟨d, _, hpos, hlt, by rw [heq, List.cons_append]⟩

theorem decimal_zero : decimal 0 = ['0'] := by
  rw [decimal, if_pos (by decide)]
  rfl

theorem decimal_ne_nil (n : Nat) : decimal n ≠ [] := by
  unfold decimal
  split
  · exact List.cons_ne_nil _ _
  · exact List.append_ne_nil_of_right_ne_nil _ (List.cons_ne_nil _ _)

theorem no_needless_zero (n : Nat) :
    ¬ ((decimal n).head? = some '0' ∧ 1 < (decimal n).length) := by
  rintro ⟨hhead, hlength⟩
  rcases Nat.eq_zero_or_pos n with rfl | hn
  · rw [decimal_zero] at hlength
    exact absurd hlength (by decide)
  · obtain ⟨d, digits, hpos, hlt, heq⟩ := head_decimal hn
    rw [heq, List.head?_cons, Option.some_inj] at hhead
    have hvalue := congrArg Char.toNat hhead
    rw [toNat_decimalDigit hlt] at hvalue
    omega

end Text

namespace Json

open Text (isDigit digitValue decimal ofDecimal)

/-! ## scanning -/

/-- no digit, point or exponent stands here, so a number in front ends here -/
def EndsNumber (text : List Char) : Prop :=
  ∀ c ∈ text.head?, isDigit c = false ∧ c ≠ '.' ∧ c ≠ 'e' ∧ c ≠ 'E'

theorem scanDigits_append {early : LayoutFault} {digits rest : List Char} (hne : digits ≠ [])
    (hdigits : ∀ c ∈ digits, isDigit c = true) (hrest : EndsNumber rest) :
    scanDigits early (digits ++ rest) = .ok (digits, rest) := by
  have hstop : rest.takeWhile isDigit = [] ∧ rest.dropWhile isDigit = rest := by
    cases rest with
    | nil => exact ⟨rfl, rfl⟩
    | cons c rest =>
      have hc := (hrest c rfl).1
      exact ⟨List.takeWhile_cons_of_neg (by rw [hc]; decide),
        List.dropWhile_cons_of_neg (by rw [hc]; decide)⟩
  cases digits with
  | nil => exact absurd rfl hne
  | cons c digits =>
    rw [List.forall_mem_cons] at hdigits
    rw [List.cons_append, scanDigits, if_pos hdigits.1, List.takeWhile_append_of_pos hdigits.2,
      List.dropWhile_append_of_pos hdigits.2, hstop.1, hstop.2, List.append_nil]

theorem scanSign_of_digit {c : Char} (hc : isDigit c = true) (text : List Char) :
    scanSign (c :: text) = (false, c :: text) := by
  unfold scanSign
  split
  · rename_i heq
    cases heq
    exact absurd hc (by decide)
  · rfl

theorem scanFraction_of_endsNumber {early : LayoutFault} {text : List Char} (h : EndsNumber text) :
    scanFraction early text = .ok ([], text) := by
  unfold scanFraction
  split
  · exact absurd rfl (h '.' rfl).2.1
  · rfl

theorem scanExponent_of_endsNumber {early : LayoutFault} {text : List Char} (h : EndsNumber text) :
    scanExponent early text = .ok (none, text) := by
  cases text with
  | nil => rfl
  | cons c text =>
    obtain ⟨_, _, hlower, hupper⟩ := h c rfl
    rw [scanExponent, if_neg (not_or.mpr ⟨hlower, hupper⟩)]

/-- **Digits in front of a text that continues no number** are a number without point or
exponent. -/
theorem scanNumber_digits {early : LayoutFault} {digits rest : List Char} (hne : digits ≠ [])
    (hdigits : ∀ c ∈ digits, isDigit c = true)
    (hzero : ¬ (digits.head? = some '0' ∧ 1 < digits.length)) (hrest : EndsNumber rest) :
    scanNumber early (digits ++ rest) = .ok (⟨false, digits, [], none⟩, rest) := by
  have hsign : scanSign (digits ++ rest) = (false, digits ++ rest) := by
    cases digits with
    | nil => exact absurd rfl hne
    | cons c digits => exact scanSign_of_digit (hdigits c List.mem_cons_self) _
  rw [scanNumber, hsign]
  simp only [scanDigits_append hne hdigits hrest, if_neg hzero, scanFraction_of_endsNumber hrest,
    scanExponent_of_endsNumber hrest]

/-! ## range -/

namespace Number

theorem le_maxNatural {n : Nat} (h : n < 2 ^ 64) : n ≤ maxNatural := Nat.le_of_lt_succ h

/-- further digits make no number smaller -/
theorem le_foldl_digits (value : Nat) (digits : List Char) :
    value ≤ digits.foldl (fun n c => 10 * n + digitValue c) value := by
  induction digits generalizing value with
  | nil => exact Nat.le_refl _
  | cons c digits ih =>
    have := ih (10 * value + digitValue c)
    rw [List.foldl_cons]
    omega

/-- the digits of a number that fits into 64 bits all go into the significand -/
theorem wholePart_of_le {value : Nat} {digits : List Char}
    (h : digits.foldl (fun n c => 10 * n + digitValue c) value ≤ maxNatural) :
    wholePart value digits = (digits.foldl (fun n c => 10 * n + digitValue c) value, 0) := by
  induction digits generalizing value with
  | nil => rfl
  | cons c digits ih =>
    rw [List.foldl_cons] at h ⊢
    have := le_foldl_digits (10 * value + digitValue c) digits
    rw [wholePart, if_neg (by omega), ih h]

/-- rounding no more than doubles a number -/
theorem round53_le {n : Nat} (hn : n ≠ 0) : round53 n ≤ 2 * n := by
  have hunit : 1 <<< (n.log2 - 52) ≤ n := by
    rw [Nat.one_shiftLeft]
    exact Nat.le_trans (Nat.pow_le_pow_right (by decide) (Nat.sub_le _ _)) (Nat.log2_self_le hn)
  have hlow := Nat.div_mul_le_self n (1 <<< (n.log2 - 52))
  unfold round53
  simp only
  split
  · rw [Nat.add_mul, Nat.one_mul]
    omega
  · omega

/-- a natural number of 64 bits is within the range of double precision -/
theorem isFinite_of_le {digits : List Char} (h : ofDecimal digits ≤ maxNatural) :
    isFinite ⟨false, digits, [], none⟩ = true := by
  have hone : round53 (Nat.pow 10 0) = 1 := by decide
  have hend : 2 * maxNatural < rangeEnd := by decide +kernel
  have hwhole := @wholePart_of_le 0 digits h
  rw [← ofDecimal] at hwhole
  unfold isFinite
  simp only [hwhole, fractionPart]
  split
  · rfl
  · rename_i hpositive
    rw [not_or] at hpositive
    have := round53_le hpositive.1
    rw [if_neg (by decide), decide_eq_true_eq]
    show round53 (ofDecimal digits) * round53 (Nat.pow 10 0) < rangeEnd
    rw [hone, Nat.mul_one]
    omega

end Number

/-! ## reading -/

/-- **The number that is printed is the one that is read.** -/
theorem readNumber_decimal {n : Nat} (h : n ≤ Number.maxNatural) {rest : List Char}
    (hrest : EndsNumber rest) :
    readNumber (decimal n ++ rest) = .ok (⟨false, decimal n, [], none⟩, rest) := by
  rw [readNumber, scanNumber_digits (Text.decimal_ne_nil n)
    (fun _ hc => Text.isDigit_of_mem_decimal hc) (Text.no_needless_zero n) hrest]
  simp only [Number.isFinite_of_le ((Text.ofDecimal_decimal n).symm ▸ h), if_true]

theorem natural?_decimal {n : Nat} (h : n ≤ Number.maxNatural) :
    Number.natural? ⟨false, decimal n, [], none⟩ = some n := by
  simp [Number.natural?, Text.ofDecimal_decimal, h]

end Json

end Cartridge
