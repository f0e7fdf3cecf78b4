import Cartridge.Json.Print
import Cartridge.Layout.Field

/-!
# Printing layouts

The printer that goes with the reader of layout texts.

* `Layout.text`   the layout as a JSON object with all fields in the order of the record.
-/

namespace Cartridge.Layout

def rangeText (r : Range) : List Char := Json.list 2 [Json.number r.start, Json.number r.stop]

def fieldText (l : Layout) : Field → List Char
  | .number f => Json.number (f.get l)
  | .freeRanges => Json.list 1 (l.freeRanges.map rangeText)

def text (l : Layout) : List Char :=
  Json.object 0 (Field.all.map fun f => Json.member f.name (l.fieldText f))

end Cartridge.Layout
