import Cartridge.Text.Hex
import Cartridge.Text.Numeral

/-!
# Numbers on the command line

* `readNumber`     an offset: a number of 64 bits;
* `readLocation`   the number of a location, which has 16 bits.
-/

namespace Cartridge.CommandLine

inductive NumberFault where
  | notANumber (text : String) (cause : Text.NumeralFault)
  | locationTooLarge (n : Nat)
  deriving DecidableEq, Repr

def NumberFault.message : NumberFault → String
  | notANumber text cause => s!"'{text}' is not a number: {cause.message}"
  | locationTooLarge n => s!"location {Text.address n} does not fit in 16 bits"

/-- the largest number of 64 bits -/
def maxNumber : Nat := 0xFFFFFFFFFFFFFFFF

def maxLocation : Nat := 0xFFFF

def readNumber (text : String) : Except NumberFault Nat :=
  (Text.readNumber maxNumber text.toList).mapError (.notANumber text)

def readLocation (text : String) : Except NumberFault Nat :=
  match readNumber text with
  | .error fault => .error fault
  | .ok n => if maxLocation < n then .error (.locationTooLarge n) else .ok n

end Cartridge.CommandLine
