/-!
# Numbers in messages and listings

The spellings of numbers that messages and listings share.

* `upperHex`      hexadecimal digits, upper case, padded with zeros to a least count;
* `address`       `0x` and the digits, as messages write a position (`paddedAddress`: at least so
                  many digits);
* `byteList`      bytes in brackets, two digits each;
* `numberList`    numbers in brackets, decimal;
* `rightAligned`  a text moved right to fill a column.
-/

namespace Cartridge.Text

/-- fills up on the left to at least `width` characters -/
def padLeft (fill : Char) (width : Nat) (s : String) : String :=
  String.ofList (List.replicate (width - s.length) fill) ++ s

def rightAligned (width n : Nat) : String := padLeft ' ' width (toString n)

/-- hexadecimal, at least `digits` digits -/
def upperHex (digits n : Nat) : String :=
  padLeft '0' digits (String.ofList ((Nat.toDigits 16 n).map Char.toUpper))

/-- a position or an address with at least `digits` digits -/
def paddedAddress (digits n : Nat) : String := "0x" ++ upperHex digits n

def address (n : Nat) : String := paddedAddress 1 n

def bracketed (items : List String) : String := "[" ++ String.intercalate ", " items ++ "]"

def byteList (bytes : List UInt8) : String := bracketed (bytes.map fun b => upperHex 2 b.toNat)

def numberList (ns : List Nat) : String := bracketed (ns.map toString)

end Cartridge.Text
