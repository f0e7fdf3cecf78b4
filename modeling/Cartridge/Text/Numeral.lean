/-!
# Reading numbers

A number is written in decimal, or in hexadecimal behind `0x` or `0X`; one plus sign may stand
before the digits (behind the `0x`).  Digits are ASCII, leading zeros are free, and nothing else is
allowed.

* `digit?`         the value of a digit of a radix;
* `readDigits`     digits from the left, up to the first that is none or leads past the limit;
* `readUnsigned`   digits with an optional plus sign;
* `readNumber`     a number in either notation.
-/

namespace Cartridge.Text

/-- why a text is no number: nothing to read, a value past the limit, or a character out of place -/
inductive NumeralFault where
  | empty | tooLarge | invalidDigit
  deriving DecidableEq, Repr

def NumeralFault.message : NumeralFault → String
  | empty => "cannot parse integer from empty string"
  | tooLarge => "number too large to fit in target type"
  | invalidDigit => "invalid digit found in string"

def digit? (radix : Nat) (c : Char) : Option Nat :=
  let value :=
    if '0' ≤ c ∧ c ≤ '9' then c.toNat - '0'.toNat
    else if 'a' ≤ c ∧ c ≤ 'z' then c.toNat - 'a'.toNat + 10
    else if 'A' ≤ c ∧ c ≤ 'Z' then c.toNat - 'A'.toNat + 10
    else radix
  if value < radix then some value else none

def readDigits (radix limit : Nat) : Nat → List Char → Except NumeralFault Nat
  | n, [] => .ok n
  | n, c :: cs =>
    match digit? radix c with
    | none => .error .invalidDigit
    | some d =>
      if limit < radix * n + d then .error .tooLarge
      else readDigits radix limit (radix * n + d) cs

def readUnsigned (radix limit : Nat) : List Char → Except NumeralFault Nat
  | [] => .error .empty
  | ['+'] => .error .invalidDigit
  | '+' :: cs => readDigits radix limit 0 cs
  | cs => readDigits radix limit 0 cs

/-- a number up to `limit` -/
def readNumber (limit : Nat) : List Char → Except NumeralFault Nat
  | '0' :: 'x' :: cs => readUnsigned 16 limit cs
  | '0' :: 'X' :: cs => readUnsigned 16 limit cs
  | cs => readUnsigned 10 limit cs

end Cartridge.Text
