import Cartridge.FreeMap.Basic

/-!
# Image layouts

Where things are in an image: the size of its banks, the address of its first byte, the location
records, the table of event pointers, and the ranges that are free before any edit.

* `Layout`             the record of these numbers; offsets count from the start of the image;
* `Layout.standard`    the layout of the English release.
-/

namespace Cartridge

structure Layout where
  bankSize : Nat
  /-- the address of the byte at offset 0 -/
  romBase : Nat
  locationTable : Nat
  locationRecordSize : Nat
  locationCount : Nat
  /-- where in a location record the event index stands, two bytes -/
  eventIndexField : Nat
  /-- where in a location record the bounds stand, two bytes -/
  boundsField : Nat
  eventPointerTable : Nat
  eventPointerCount : Nat
  freeRanges : List Range
  deriving DecidableEq, Repr

namespace Layout

def standard : Layout where
  bankSize := 0x10000
  romBase := 0xC00000
  locationTable := 0x360000
  locationRecordSize := 14
  locationCount := 0x200
  eventIndexField := 8
  boundsField := 12
  eventPointerTable := 0x3CF9F0
  eventPointerCount := 0x201
  freeRanges := []

end Layout

end Cartridge
