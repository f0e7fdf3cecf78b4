import Cartridge.CommandLine.Number
import Cartridge.Proofs.Assembly.Commands
import Mathlib.Data.List.DropRight
import Mathlib.Data.Nat.Digits.Defs
import Mathlib.Tactic.Ring

/-!
# The grammar of numbers

Digits are read from the left, and the first that leads past the limit ends it all; so the numbers
that are read are those whose whole value is within the limit, leading zeros or not.  The command
line and the assembler have this reader in common.  They differ in the limit, and in the commas
behind a token of the assembler.

* `IsDigit`, `Digits`, `Unsigned`, `Numeral`   what a number may look like, and its value;
* `digit?_eq_some`       the characters that are digits;
* `readDigits_eq_ok`     digits behind those that are read already;
* `readNumber_eq_ok`     what is read as a number is a numeral within the limit;
* `withoutCommas_eq`     the token in front of its trailing commas;
* `readers_of_numerals`  **the command line and the assembler read the same numbers.**
-/

namespace Cartridge

open Assembly (hexDigit)

namespace Text

/-! ## the grammar -/

/-- a digit of the radix, a letter in either case -/
def IsDigit (radix : Nat) (c : Char) (value : Nat) : Prop :=
  value < radix ∧ ∃ capital, c = hexDigit capital value

/-- one digit or more, the first one with the highest place -/
def Digits (radix : Nat) (text : List Char) (n : Nat) : Prop :=
  text ≠ [] ∧ ∃ values, List.Forall₂ (IsDigit radix) text values ∧
    n = Nat.ofDigits radix values.reverse

/-- digits, with or without a plus sign -/
def Unsigned (radix : Nat) (text : List Char) (n : Nat) : Prop :=
  ∃ digits, (text = digits ∨ text = '+' :: digits) ∧ Digits radix digits n

/-- decimal, or hexadecimal behind `0x` or `0X` -/
inductive Numeral : List Char → Nat → Prop
  | decimal {text : List Char} {n : Nat} (h : Unsigned 10 text n) : Numeral text n
  | hexadecimal {mark : Char} {text : List Char} {n : Nat} (hmark : mark = 'x' ∨ mark = 'X')
    (h : Unsigned 16 text n) : Numeral ('0' :: mark :: text) n

/-! ## digits -/

theorem toNat_hexDigit (capital : Bool) {n : Nat} (h : n < 16) : (hexDigit capital n).toNat =
    if n < 10 then n + 48 else if capital then n + 55 else n + 87 := by
  have hall : ∀ capital, ∀ n < 16, (hexDigit capital n).toNat =
      if n < 10 then n + 48 else if capital then n + 55 else n + 87 := by decide +kernel
  exact hall capital n h

section
variable {radix limit : Nat}

/-- the characters that are digits, by their numbers -/
theorem isDigit_iff (hradix : radix ≤ 16) {c : Char} {d : Nat} : IsDigit radix c d ↔
    d < radix ∧ (d < 10 ∧ c.toNat = d + 48 ∨
      10 ≤ d ∧ (c.toNat = d + 55 ∨ c.toNat = d + 87)) := by
  have hchar : ∀ capital, d < radix → (c = hexDigit capital d ↔ c.toNat =
      if d < 10 then d + 48 else if capital then d + 55 else d + 87) := by
    intro capital hd
    rw [← toNat_hexDigit capital (by omega), Char.toNat_inj]
  constructor
  · rintro ⟨hd, capital, hc⟩
    have hn := (hchar capital hd).mp hc
    cases capital with
    | false => grind
    | true => grind
  · rintro ⟨hd, hn⟩
    by_cases hcapital : c.toNat = d + 55
    · exact ⟨hd, true, (hchar true hd).mpr (by grind)⟩
    · exact ⟨hd, false, (hchar false hd).mpr (by grind)⟩

theorem digit?_eq_some (hradix : radix ≤ 16) {c : Char} {d : Nat} :
    digit? radix c = some d ↔ IsDigit radix c d := by
  rw [isDigit_iff hradix]
  simp only [digit?, Char.le_def, UInt32.le_iff_toNat_le, Char.toNat_val, Char.reduceToNat]
  grind

/-- the value with one digit more in front of the others -/
theorem ofDigits_ahead (radix n d : Nat) (values : List Nat) :
    n * radix ^ (d :: values).length + Nat.ofDigits radix (d :: values).reverse =
      (radix * n + d) * radix ^ values.length + Nat.ofDigits radix values.reverse := by
  rw [Nat.ofDigits_reverse_cons, List.length_cons, pow_succ]
  ring

/-- digits behind those that have given `n` -/
theorem readDigits_eq_ok (hradix : radix ≤ 16) {text : List Char} {n m : Nat} (hn : n ≤ limit) :
    readDigits radix limit n text = .ok m ↔ ∃ values, List.Forall₂ (IsDigit radix) text values ∧
      m = n * radix ^ values.length + Nat.ofDigits radix values.reverse ∧ m ≤ limit := by
  induction text generalizing n with
  | nil =>
    simp only [readDigits, Except.ok.injEq, List.forall₂_nil_left_iff, exists_eq_left]
    simp only [List.length_nil, pow_zero, mul_one, List.reverse_nil, Nat.ofDigits_nil, add_zero]
    grind
  | cons c text ih =>
    rw [readDigits]
    constructor
    · intro h
      cases hc : digit? radix c with
      | none => simp [hc] at h
      | some d =>
        simp only [hc] at h
        split at h
        · cases h
        · next hfits =>
          obtain ⟨values, hvalues, hm, hle⟩ := (ih (Nat.le_of_not_lt hfits)).mp h
          refine ⟨d :: values, .cons ((digit?_eq_some hradix).mp hc) hvalues, ?_, hle⟩
          rw [ofDigits_ahead, hm]
    · rintro ⟨_, hvalues, hm, hle⟩
      cases hvalues with
      | @cons _ d _ values hd hvalues =>
        have hpos : 0 < radix := Nat.zero_lt_of_lt hd.1
        rw [ofDigits_ahead] at hm
        -- the digits that follow only add to the value
        have hfits : radix * n + d ≤ limit := by
          have hpow : 0 < radix ^ values.length := Nat.pow_pos hpos
          have hgrows := Nat.le_mul_of_pos_right (radix * n + d) hpow
          omega
        simp only [(digit?_eq_some hradix).mpr hd, if_neg (Nat.not_lt.mpr hfits)]
        exact (ih hfits).mpr ⟨values, hvalues, hm, hle⟩

theorem readDigits_zero_eq_ok (hradix : radix ≤ 16) {text : List Char} {n : Nat}
    (htext : text ≠ []) :
    readDigits radix limit 0 text = .ok n ↔ Digits radix text n ∧ n ≤ limit := by
  rw [readDigits_eq_ok hradix (Nat.zero_le limit)]
  simp only [Digits, zero_mul, zero_add]
  grind

/-! ## signs and prefixes -/

theorem IsDigit.plain (hradix : radix ≤ 16) {c : Char} {d : Nat} (h : IsDigit radix c d) :
    c ≠ '+' ∧ c ≠ 'x' ∧ c ≠ 'X' := by
  obtain ⟨hd, hc⟩ := (isDigit_iff hradix).mp h
  have hne : ∀ mark : Char, mark.toNat = 43 ∨ mark.toNat = 120 ∨ mark.toNat = 88 → c ≠ mark := by
    rintro _ hmark rfl
    omega
  exact ⟨hne '+' (.inl rfl), hne 'x' (.inr (.inl rfl)), hne 'X' (.inr (.inr rfl))⟩

theorem Digits.plain (hradix : radix ≤ 16) {text : List Char} {n : Nat} (h : Digits radix text n) :
    ∀ c ∈ text, c ≠ '+' ∧ c ≠ 'x' ∧ c ≠ 'X' := by
  obtain ⟨_, values, hvalues, _⟩ := h
  intro c hc
  obtain ⟨d, _, hd⟩ := exists_of_mem_left hvalues hc
  exact hd.plain hradix

theorem unsigned_signed (hradix : radix ≤ 16) {text : List Char} {n : Nat} :
    Unsigned radix ('+' :: text) n ↔ Digits radix text n := by
  constructor
  · rintro ⟨digits, rfl | heq, h⟩
    · exact absurd rfl (h.plain hradix '+' List.mem_cons_self).1
    · rwa [(List.cons.inj heq).2]
  · intro h
    exact ⟨text, .inr rfl, h⟩

theorem unsigned_plain {text : List Char} {n : Nat} (htext : ∀ cs, text ≠ '+' :: cs) :
    Unsigned radix text n ↔ Digits radix text n := by
  constructor
  · rintro ⟨digits, rfl | heq, h⟩
    · exact h
    · exact absurd heq (htext digits)
  · intro h
    exact ⟨text, .inl rfl, h⟩

theorem readUnsigned_eq_ok (hradix : radix ≤ 16) {text : List Char} {n : Nat} :
    readUnsigned radix limit text = .ok n ↔ Unsigned radix text n ∧ n ≤ limit := by
  unfold readUnsigned
  split
  · simp [unsigned_plain, Digits]
  · simp [unsigned_signed hradix, Digits]
  · next cs hcs =>
    have hne : cs ≠ [] := by
      rintro rfl
      exact hcs rfl
    rw [readDigits_zero_eq_ok hradix hne, unsigned_signed hradix]
  · next hnil _ hplus =>
    rw [readDigits_zero_eq_ok hradix hnil, unsigned_plain hplus]

end

theorem numeral_hexadecimal {mark : Char} (hmark : mark = 'x' ∨ mark = 'X') {text : List Char}
    {n : Nat} : Numeral ('0' :: mark :: text) n ↔ Unsigned 16 text n := by
  constructor
  · intro h
    cases h with
    | decimal h =>
      -- the mark is no decimal digit
      rw [unsigned_plain (by simp)] at h
      have hplain := h.plain (by decide) mark (by simp)
      grind
    | hexadecimal _ h => exact h
  · exact Numeral.hexadecimal hmark

theorem numeral_decimal {text : List Char} {n : Nat} (hsmall : ∀ cs, text ≠ '0' :: 'x' :: cs)
    (hcapital : ∀ cs, text ≠ '0' :: 'X' :: cs) : Numeral text n ↔ Unsigned 10 text n := by
  constructor
  · intro h
    cases h with
    | decimal h => exact h
    | hexadecimal hmark h =>
      obtain rfl | rfl := hmark
      · exact absurd rfl (hsmall _)
      · exact absurd rfl (hcapital _)
  · exact Numeral.decimal

/-- **What is read as a number is a numeral within the limit.** -/
theorem readNumber_eq_ok {limit : Nat} {text : List Char} {n : Nat} :
    readNumber limit text = .ok n ↔ Numeral text n ∧ n ≤ limit := by
  unfold readNumber
  split
  · rw [readUnsigned_eq_ok (by decide), numeral_hexadecimal (.inl rfl)]
  · rw [readUnsigned_eq_ok (by decide), numeral_hexadecimal (.inr rfl)]
  · next hsmall hcapital =>
    rw [readUnsigned_eq_ok (by decide), numeral_decimal hsmall hcapital]

end Text

/-! ## the two readers -/

namespace CommandLine

theorem readNumber_eq_ok {text : String} {n : Nat} :
    readNumber text = .ok n ↔ Text.Numeral text.toList n ∧ n < 2 ^ 64 := by
  rw [readNumber, mapError_eq_ok, Text.readNumber_eq_ok]
  exact and_congr_right fun _ => Nat.lt_succ_iff.symm

end CommandLine

namespace Assembly

/-- a token is something that does not end with a comma, and the commas behind it -/
theorem withoutCommas_eq (token : List Char) : ∃ commas,
    token = withoutCommas token ++ List.replicate commas ',' ∧
      (withoutCommas token).getLast? ≠ some ',' := by
  have hbody : withoutCommas token = token.rdropWhile (· == ',') := rfl
  have hcommas : ∀ c ∈ token.rtakeWhile (· == ','), c = ',' := by
    intro c hc
    simpa using List.mem_rtakeWhile_imp hc
  refine ⟨(token.rtakeWhile (· == ',')).length, ?_, ?_⟩
  · rw [hbody, ← List.eq_replicate_of_mem hcommas, List.rdropWhile_append_rtakeWhile]
  · intro hlast
    rw [hbody] at hlast
    have hne : token.rdropWhile (· == ',') ≠ [] := by
      intro hnil
      rw [hnil] at hlast
      cases hlast
    rw [List.getLast?_eq_some_getLast hne, Option.some.injEq] at hlast
    exact List.rdropWhile_last_not _ token hne (by simp [hlast])

theorem number_eq_ok {line : Nat} {token : List Char} {n : Nat} :
    number line token = .ok n ↔ Text.Numeral (withoutCommas token) n ∧ n < 2 ^ 32 := by
  have hread : number line token = .ok n ↔
      Text.readNumber maxNumber (withoutCommas token) = .ok n := by
    cases h : Text.readNumber maxNumber (withoutCommas token) with
    | error fault => simp [number, h]
    | ok m => simp [number, h]
  rw [hread, Text.readNumber_eq_ok]
  exact and_congr_right fun _ => Nat.lt_succ_iff.symm

end Assembly

/-- **The command line and the assembler read the same numbers.**  The command line reads a text as
a number of 64 bits just when it is a numeral of that value; and the assembler reads a token as a
number of 32 bits just when the command line reads that number in what stands in front of the
trailing commas. -/
theorem readers_of_numerals :
    (∀ (text : String) (n : Nat),
      CommandLine.readNumber text = .ok n ↔ Text.Numeral text.toList n ∧ n < 2 ^ 64) ∧
    ∀ (line : Nat) (token : List Char), ∃ body commas,
      token = body ++ List.replicate commas ',' ∧ body.getLast? ≠ some ',' ∧
        ∀ v, Assembly.number line token = .ok v ↔
          CommandLine.readNumber (String.ofList body) = .ok v ∧ v < 2 ^ 32 := by
  refine ⟨fun text n => CommandLine.readNumber_eq_ok, ?_⟩
  intro line token
  obtain ⟨commas, htoken, hlast⟩ := Assembly.withoutCommas_eq token
  refine ⟨Assembly.withoutCommas token, commas, htoken, hlast, ?_⟩
  intro v
  rw [Assembly.number_eq_ok, CommandLine.readNumber_eq_ok, String.toList_ofList]
  constructor
  · rintro ⟨h, hv⟩
    exact ⟨⟨h, by omega⟩, hv⟩
  · rintro ⟨⟨h, _⟩, hv⟩
    exact ⟨h, hv⟩

/-- a sign behind the prefix, zeros, and letters in both cases -/
example : CommandLine.readNumber "0X+00fF" = .ok 255 := by rfl

end Cartridge
