/-!
# Decimal digits

* `decimalDigit`   the digit of a number below ten; `digitValue` the number of a digit;
* `decimal`        the digits of a number, the highest first;
* `ofDecimal`      the number that digits spell.
-/

namespace Cartridge.Text

def decimalDigit (n : Nat) : Char := Char.ofNat ('0'.toNat + n)

def isDigit (c : Char) : Bool := '0' ≤ c && c ≤ '9'

def digitValue (c : Char) : Nat := c.toNat - '0'.toNat

def decimal (n : Nat) : List Char :=
  if n < 10 then [decimalDigit n] else decimal (n / 10) ++ [decimalDigit (n % 10)]

def ofDecimal (digits : List Char) : Nat := digits.foldl (fun n c => 10 * n + digitValue c) 0

end Cartridge.Text
